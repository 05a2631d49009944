import ProotDistro.Lib.Dict
import ProotDistro.Lib.JsonString
import Mathlib.Data.List.Lex
import Mathlib.Data.List.TakeWhile
import Mathlib.Data.Nat.Digits.Lemmas

/-!
# JSON texts over strings of code points

A writer and a reader of JSON. The writer knows two spacings, the compact one with the keys of every
object in order. The reader pairs the surrogates of every string and lets a key that comes twice keep its
first place and its last value. How a number that is no integer is written and read is a parameter.

* **`read_dump`** — a value that was written is read back: its surrogates are paired, its keys told apart
  by what they are then.
* **`canonical_reread_iff`** — a value that has been written and read has the canonical text it had before
  if and only if, in every object, pairing its surrogates leaves the keys distinct and in their order.
-/

namespace JsonText

/-! ## Values -/

inductive Value (F : Type) where
  | null
  | bool (b : Bool)
  | int (n : Int)
  | float (x : F)
  | str (s : CodePoints)
  | arr (items : List (Value F))
  | obj (fields : List (CodePoints × Value F))

/-- A number in its parts. -/
structure Number where
  sign : CodePoints
  int : CodePoints
  frac : CodePoints
  exp : CodePoints
  deriving DecidableEq

def Number.text (n : Number) : CodePoints := n.sign ++ n.int ++ n.frac ++ n.exp

def isDigit (c : CodePoint) : Bool := ofChar '0' ≤ c && c ≤ ofChar '9'

/-- The sign a text begins with. -/
def scanSign (signs : CodePoints) : CodePoints → CodePoints
  | c :: _ => if c ∈ signs then [c] else []
  | [] => []

/-- The digits before the point: no more follow a zero. -/
def scanInt (s : CodePoints) : CodePoints :=
  if s.head? = some (ofChar '0') then [ofChar '0'] else s.takeWhile isDigit

/-- A point and digits. -/
def scanFrac : CodePoints → CodePoints
  | c :: t => if c = ofChar '.' ∧ t.takeWhile isDigit ≠ [] then c :: t.takeWhile isDigit else []
  | [] => []

/-- An `e`, a sign or none, and digits. -/
def scanExp : CodePoints → CodePoints
  | c :: t =>
    let sign := scanSign (ofText "+-") t
    let digits := (t.drop sign.length).takeWhile isDigit
    if c ∈ ofText "eE" ∧ digits ≠ [] then c :: (sign ++ digits) else []
  | [] => []

/-- The number a text begins with. -/
def scanNumber (s : CodePoints) : Option Number :=
  let sign := scanSign (ofText "-") s
  let s := s.drop sign.length
  let int := scanInt s
  let s := s.drop int.length
  let frac := scanFrac s
  let s := s.drop frac.length
  if int = [] then none else some { sign, int, frac, exp := scanExp s }

/-- The numbers that are not written in digits. -/
def constants : List CodePoints := [ofText "NaN", ofText "Infinity", ofText "-Infinity"]

/-- How the numbers that are no integers are written and read: what is written is one of the constants or
has a fraction or an exponent, and is read as the same number. -/
structure FloatFormat (F : Type) where
  write : F → CodePoints
  read : CodePoints → F
  read_write : ∀ x, read (write x) = x
  written : ∀ x, write x ∈ constants ∨
    ∃ n, scanNumber (write x) = some n ∧ n.text = write x ∧ n.frac ++ n.exp ≠ []

def digit (d : Nat) : CodePoint := Fin.ofNat 0x110000 (48 + d)

/-- The decimal digits of a number. -/
def natText (n : Nat) : CodePoints := if n = 0 then [ofChar '0'] else ((Nat.digits 10 n).map digit).reverse

def intText : Int → CodePoints
  | .ofNat n => natText n
  | .negSucc n => ofChar '-' :: natText (n + 1)

/-! ## Writing -/

/-- The blanks behind a comma or a colon. -/
inductive Spacing where
  | spaced
  | compact

def Spacing.text : Spacing → CodePoints
  | .spaced => [ofChar ' ']
  | .compact => []

section Writer

variable {F : Type} (f : FloatFormat F) (sp : Spacing)

mutual

/-- A value as it is written. -/
def dump : Value F → CodePoints
  | .null => ofText "null"
  | .bool true => ofText "true"
  | .bool false => ofText "false"
  | .int n => intText n
  | .float x => f.write x
  | .str s => dumpString s
  | .arr [] => ofText "[]"
  | .arr (v :: items) => ofChar '[' :: (dump v ++ dumpItems items)
  | .obj [] => ofText "\x7b\x7d"
  | .obj ((k, v) :: fields) =>
    ofChar '\x7b' :: (dumpString k ++ ofChar ':' :: (sp.text ++ dump v ++ dumpFields fields))

/-- The items behind the first. -/
def dumpItems : List (Value F) → CodePoints
  | [] => [ofChar ']']
  | v :: items => ofChar ',' :: (sp.text ++ dump v ++ dumpItems items)

def dumpFields : List (CodePoints × Value F) → CodePoints
  | [] => [ofChar '\x7d']
  | (k, v) :: fields =>
    ofChar ',' :: (sp.text ++ dumpString k ++ ofChar ':' :: (sp.text ++ dump v ++ dumpFields fields))

end

end Writer

section Order

variable {F : Type}

def keyLe (x y : CodePoints × Value F) : Bool := decide (x.1 ≤ y.1)

mutual

/-- The same value with the keys of every object in order. -/
def sortKeys : Value F → Value F
  | .null => .null
  | .bool b => .bool b
  | .int n => .int n
  | .float x => .float x
  | .str s => .str s
  | .arr items => .arr (sortItems items)
  | .obj fields => .obj ((sortFields fields).mergeSort keyLe)

def sortItems : List (Value F) → List (Value F)
  | [] => []
  | v :: items => sortKeys v :: sortItems items

def sortFields : List (CodePoints × Value F) → List (CodePoints × Value F)
  | [] => []
  | (k, v) :: fields => (k, sortKeys v) :: sortFields fields

end

/-- Sorted keys and no blanks. -/
def canonical (f : FloatFormat F) (v : Value F) : CodePoints := dump f .compact (sortKeys v)

end Order

/-! ## Reading -/

def isBlank (c : CodePoint) : Bool := c ∈ ofText " \t\n\r"

def skip (s : CodePoints) : CodePoints := s.dropWhile isBlank

section Reader

variable {F : Type} (f : FloatFormat F)

def readInt (sign digits : CodePoints) : Int :=
  let n : Nat := digits.foldl (fun n c => 10 * n + (c.val - 48)) 0
  if sign = [] then (n : Int) else -(n : Int)

/-- A number, or one of the words. -/
def readAtom (s : CodePoints) : Option (Value F × CodePoints) :=
  match scanNumber s with
  | some n =>
    some (if n.frac ++ n.exp = [] then .int (readInt n.sign n.int) else .float (f.read n.text),
      s.drop n.text.length)
  | none =>
    if ofText "null" <+: s then some (.null, s.drop 4)
    else if ofText "true" <+: s then some (.bool true, s.drop 4)
    else if ofText "false" <+: s then some (.bool false, s.drop 5)
    else (constants.find? fun w => w.isPrefixOf s).map fun w => (.float (f.read w), s.drop w.length)

variable (hook : List (CodePoints × Value F) → List (CodePoints × Value F))

mutual

/-- The value a text begins with; `hook` makes an object of the keys and values that were read. -/
def readValue : Nat → CodePoints → Option (Value F × CodePoints)
  | 0, _ => none
  | _, [] => none
  | fuel + 1, c :: t =>
    if c = quote then (readString t).map fun x => (.str x.1, x.2)
    else if c = ofChar '[' then
      if (skip t).head? = some (ofChar ']') then some (.arr [], (skip t).drop 1)
      else (readItems fuel (skip t)).map fun x => (.arr x.1, x.2)
    else if c = ofChar '\x7b' then
      if (skip t).head? = some (ofChar '\x7d') then some (.obj (hook []), (skip t).drop 1)
      else (readFields fuel (skip t)).map fun x => (.obj (hook x.1), x.2)
    else readAtom f (c :: t)

/-- The items of a list up to the bracket. -/
def readItems : Nat → CodePoints → Option (List (Value F) × CodePoints)
  | 0, _ => none
  | fuel + 1, s =>
    match readValue fuel s with
    | none => none
    | some (v, rest) =>
      if (skip rest).head? = some (ofChar ',') then
        (readItems fuel (skip ((skip rest).drop 1))).map fun x => (v :: x.1, x.2)
      else if (skip rest).head? = some (ofChar ']') then some ([v], (skip rest).drop 1)
      else none

/-- The fields of an object up to the brace. -/
def readFields : Nat → CodePoints → Option (List (CodePoints × Value F) × CodePoints)
  | 0, _ => none
  | _, [] => none
  | fuel + 1, c :: t =>
    if c ≠ quote then none
    else
      match readString t with
      | none => none
      | some (k, rest) =>
        if (skip rest).head? ≠ some (ofChar ':') then none
        else
          match readValue fuel (skip ((skip rest).drop 1)) with
          | none => none
          | some (v, rest) =>
            if (skip rest).head? = some (ofChar ',') then
              (readFields fuel (skip ((skip rest).drop 1))).map fun x => ((k, v) :: x.1, x.2)
            else if (skip rest).head? = some (ofChar '\x7d') then some ([(k, v)], (skip rest).drop 1)
            else none

end

/-- A whole text. Of every two steps one reads a character, so there is fuel enough. -/
def read (s : CodePoints) : Option (Value F) :=
  match readValue f hook (2 * s.length + 1) (skip s) with
  | none => none
  | some (v, rest) => if skip rest = [] then some v else none

/-- `json.loads` -/
def loads (s : CodePoints) : Option (Value F) := read f Dict.ofPairs s

end Reader

/-! ## What is read back -/

section Reread

variable {F : Type} (hook : List (CodePoints × Value F) → List (CodePoints × Value F))

mutual

/-- A value that has been written and read. -/
def rereadWith : Value F → Value F
  | .null => .null
  | .bool b => .bool b
  | .int n => .int n
  | .float x => .float x
  | .str s => .str (pair s)
  | .arr items => .arr (rereadItems items)
  | .obj fields => .obj (hook (rereadFields fields))

def rereadItems : List (Value F) → List (Value F)
  | [] => []
  | v :: items => rereadWith v :: rereadItems items

def rereadFields : List (CodePoints × Value F) → List (CodePoints × Value F)
  | [] => []
  | (k, v) :: fields => (pair k, rereadWith v) :: rereadFields fields

end

/-- What `json.loads` reads of a value that was written. -/
def reread (v : Value F) : Value F := rereadWith Dict.ofPairs v

end Reread

/-! ## Numbers -/

section Numbers

variable {F : Type} {f : FloatFormat F} {s t rest : CodePoints} {c : CodePoint} {n : Number}

/-- What may follow a value: the end, a comma or what closes a list or an object. -/
def Ends (rest : CodePoints) : Prop := ∀ c ∈ rest.head?, c ∈ ofText ",]\x7d"

/-- A number may end where the text does. -/
theorem ends_nil : Ends [] := nofun

/-- It may end before a comma or a closing bracket. -/
theorem ends_cons (h : c ∈ ofText ",]\x7d") : Ends (c :: rest) := by
  intro d hd
  rw [← Option.some.inj hd]
  exact h

/-- A scanner reads the front of a text, and as much of it whatever ends the value. -/
structure Scanner (scan : CodePoints → CodePoints) : Prop where
  isPrefix : ∀ s, scan s <+: s
  stops : ∀ s rest, Ends rest → scan (s ++ rest) = scan s

/-- What a scanner leaves of a text that goes on is what it left, and the rest. -/
theorem Scanner.drop_append {scan : CodePoints → CodePoints} (h : Scanner scan) (hends : Ends rest) :
    (s ++ rest).drop (scan (s ++ rest)).length = s.drop (scan s).length ++ rest := by
  rw [h.stops s rest hends, List.drop_append_of_le_length (h.isPrefix s).length_le]

/-- Nothing in a list of characters that end no value begins what follows one. -/
theorem head_notMem {l : CodePoints} (hl : l.all (fun c => c ∉ ofText ",]\x7d") = true)
    (h : Ends (c :: rest)) : c ∉ l :=
  fun hc => of_decide_eq_true (List.all_eq_true.mp hl c hc) (h c rfl)

/-- One scanner behind another. -/
theorem Scanner.seq {scan scan' : CodePoints → CodePoints} (h : Scanner scan) (h' : Scanner scan') :
    Scanner fun s => scan s ++ scan' (s.drop (scan s).length) where
  isPrefix s := by
    obtain ⟨t, ht⟩ := h.isPrefix s
    have hdrop : s.drop (scan s).length = t := by
      conv => lhs; arg 2; rw [← ht]
      exact List.drop_left
    rw [hdrop]
    conv => rhs; rw [← ht]
    exact (List.prefix_append_right_inj _).mpr (h'.isPrefix t)
  stops s rest hends := by
    rw [h.drop_append hends, h.stops s rest hends, h'.stops _ rest hends]

/-- The sign is scanned without what follows it. -/
theorem scanner_sign {signs : CodePoints} (h : signs.all (fun c => c ∉ ofText ",]\x7d") = true) :
    Scanner (scanSign signs) where
  isPrefix s := by
    cases s with
    | nil => exact List.prefix_rfl
    | cons c t =>
      rw [scanSign]
      split
      · exact ⟨t, rfl⟩
      · exact List.nil_prefix
  stops s rest hends := by
    cases s with
    | cons c t => rfl
    | nil =>
      cases rest with
      | nil => rfl
      | cons c t => rw [List.nil_append, scanSign, if_neg (head_notMem h hends), scanSign]

theorem scanner_digits : Scanner (List.takeWhile isDigit) where
  isPrefix s := List.takeWhile_prefix _
  stops s rest hends := by
    induction s with
    | nil =>
      cases rest with
      | nil => rfl
      | cons c t =>
        have hall : (ofText ",]\x7d").all (fun c => !isDigit c) = true := by decide
        have hc := List.all_eq_true.mp hall c (hends c rfl)
        rw [Bool.not_eq_true'] at hc
        rw [List.nil_append, List.takeWhile_cons_of_neg (by rw [hc]; simp), List.takeWhile_nil]
    | cons c s ih => rw [List.cons_append, List.takeWhile_cons, List.takeWhile_cons, ih]

theorem scanner_int : Scanner scanInt where
  isPrefix s := by
    unfold scanInt
    split
    · rename_i hzero
      obtain ⟨t, rfl⟩ := List.head?_eq_some_iff.mp hzero
      exact ⟨t, rfl⟩
    · exact scanner_digits.isPrefix s
  stops s rest hends := by
    unfold scanInt
    rw [scanner_digits.stops s rest hends]
    cases s with
    | cons c t => rfl
    | nil =>
      cases rest with
      | nil => rfl
      | cons c t =>
        have hc : (c :: t).head? ≠ some (ofChar '0') := by
          intro hzero
          have hmem := hends _ hzero
          exact absurd hmem (by decide)
        rw [List.nil_append, if_neg hc]
        rfl

theorem scanner_frac : Scanner scanFrac where
  isPrefix s := by
    cases s with
    | nil => exact List.prefix_rfl
    | cons c t =>
      rw [scanFrac]
      split
      · exact List.cons_prefix_cons.mpr ⟨rfl, scanner_digits.isPrefix t⟩
      · exact List.nil_prefix
  stops s rest hends := by
    cases s with
    | cons c t => rw [List.cons_append, scanFrac, scanner_digits.stops t rest hends, scanFrac]
    | nil =>
      cases rest with
      | nil => rfl
      | cons c t =>
        have hc : c ≠ ofChar '.' := by
          intro heq
          rw [heq] at hends
          exact absurd (hends _ rfl) (by decide)
        rw [List.nil_append, scanFrac, if_neg fun h => hc h.1, scanFrac]

/-- A sign and digits. -/
theorem scanner_signed : Scanner fun s => scanSign (ofText "+-") s ++
    (s.drop (scanSign (ofText "+-") s).length).takeWhile isDigit :=
  (scanner_sign (by decide)).seq scanner_digits

/-- So is the exponent, with its letter and sign. -/
theorem scanner_exp : Scanner scanExp where
  isPrefix s := by
    cases s with
    | nil => exact List.prefix_rfl
    | cons c t =>
      rw [scanExp]
      split
      · exact List.cons_prefix_cons.mpr ⟨rfl, scanner_signed.isPrefix t⟩
      · exact List.nil_prefix
  stops s rest hends := by
    have hsign : Scanner (scanSign (ofText "+-")) := scanner_sign (by decide)
    cases s with
    | cons c t =>
      rw [List.cons_append, scanExp, hsign.drop_append hends, hsign.stops t rest hends,
        scanner_digits.stops _ rest hends, scanExp]
    | nil =>
      cases rest with
      | nil => rfl
      | cons c t =>
        have hc : c ∉ ofText "eE" := head_notMem (by decide) hends
        rw [List.nil_append, scanExp, if_neg fun h => hc h.1, scanExp]

/-- **A number is read to its end**, whatever ends the value. -/
theorem scanNumber_append (hends : Ends rest) : scanNumber (s ++ rest) = scanNumber s := by
  have hsign : Scanner (scanSign (ofText "-")) := scanner_sign (by decide)
  unfold scanNumber
  dsimp only
  rw [hsign.drop_append hends, hsign.stops s rest hends, scanner_int.drop_append hends,
    scanner_int.stops _ rest hends, scanner_frac.drop_append hends, scanner_frac.stops _ rest hends,
    scanner_exp.stops _ rest hends]

/-- A number begins with a sign or a digit. -/
theorem scanNumber_head (h : scanNumber s = some n) : ∃ c t, s = c :: t ∧ (c = ofChar '-' ∨ isDigit c = true) := by
  unfold scanNumber at h
  dsimp only at h
  split at h
  · cases h
  · rename_i hint
    cases s with
    | nil => exact absurd rfl hint
    | cons c t =>
      refine ⟨c, t, rfl, ?_⟩
      by_cases hsign : c ∈ ofText "-"
      · exact .inl (List.mem_singleton.mp hsign)
      · right
        rw [scanSign, if_neg hsign] at hint
        by_contra hdigit
        apply hint
        have hzero : (c :: t).head? ≠ some (ofChar '0') := by
          intro heq
          rw [Option.some.inj heq] at hdigit
          exact hdigit (by decide)
        show scanInt (c :: t) = []
        unfold scanInt
        rw [if_neg hzero, List.takeWhile_cons_of_neg hdigit]

/-! ### Integers -/

/-- A digit is read as its value, and is `0` for zero only. -/
theorem digit_spec {d : Nat} (h : d < 10) :
    isDigit (digit d) = true ∧ (digit d).val - 48 = d ∧ (digit d = ofChar '0' → d = 0) := by
  have hall : ∀ d : Fin 10, isDigit (digit d.val) = true ∧ (digit d.val).val - 48 = d.val ∧
      (digit d.val = ofChar '0' → d.val = 0) := by decide
  exact hall ⟨d, h⟩

/-- A natural number is written in digits. -/
theorem natText_digits (n : Nat) : ∀ c ∈ natText n, isDigit c = true := by
  intro c hc
  unfold natText at hc
  split at hc
  · rw [List.mem_singleton.mp hc]
    decide
  · rw [List.mem_reverse, List.mem_map] at hc
    obtain ⟨d, hd, rfl⟩ := hc
    exact (digit_spec (Nat.digits_lt_base (by omega) hd)).1

/-- A number is read as its digits say. -/
theorem scanInt_natText (n : Nat) : scanInt (natText n) = natText n ∧ natText n ≠ [] := by
  by_cases hn : n = 0
  · rw [hn]
    exact ⟨by decide, by decide⟩
  · have hne : Nat.digits 10 n ≠ [] := Nat.digits_ne_nil_iff_ne_zero.mpr hn
    have htext : natText n = ((Nat.digits 10 n).map digit).reverse := by
      unfold natText
      rw [if_neg hn]
    have hhead : (natText n).head? ≠ some (ofChar '0') := by
      rw [htext, List.head?_reverse, List.getLast?_map, List.getLast?_eq_some_getLast hne, Option.map_some,
        Ne, Option.some.injEq]
      intro hzero
      have hlast : (Nat.digits 10 n).getLast hne < 10 :=
        Nat.digits_lt_base (by omega) (List.getLast_mem hne)
      exact Nat.getLast_digit_ne_zero 10 hn ((digit_spec hlast).2.2 hzero)
    constructor
    · unfold scanInt
      rw [if_neg hhead]
      exact List.takeWhile_eq_self_iff.mpr (natText_digits n)
    · rw [htext, Ne, List.reverse_eq_nil_iff, List.map_eq_nil_iff]
      exact hne

/-- The digits of a number add up to it again. -/
theorem foldl_natText (n : Nat) :
    (natText n).foldl (fun (n : Nat) (c : CodePoint) => 10 * n + (c.val - 48)) 0 = n := by
  by_cases hn : n = 0
  · rw [hn]
    decide
  · unfold natText
    rw [if_neg hn, List.foldl_reverse, List.foldr_map]
    have hfold : ∀ l : List Nat, (∀ d ∈ l, d < 10) →
        l.foldr (fun d n => 10 * n + ((digit d).val - 48)) 0 = Nat.ofDigits 10 l := by
      intro l hl
      induction l with
      | nil => rfl
      | cons d l ih =>
        rw [List.foldr_cons, ih fun x hx => hl x (List.mem_cons_of_mem _ hx), Nat.ofDigits_cons,
          (digit_spec (hl d List.mem_cons_self)).2.1]
        omega
    rw [hfold _ fun d hd => Nat.digits_lt_base (by omega) hd, Nat.ofDigits_digits]

/-- The parts of an integer as it is written. -/
theorem scanNumber_intText (m : Int) : ∃ n, scanNumber (intText m) = some n ∧ n.text = intText m ∧
    n.frac ++ n.exp = [] ∧ readInt n.sign n.int = m := by
  cases m with
  | ofNat m =>
    obtain ⟨hscan, hne⟩ := scanInt_natText m
    refine ⟨⟨[], natText m, [], []⟩, ?_, by simp [Number.text, intText], rfl, ?_⟩
    · have hsign : scanSign (ofText "-") (natText m) = [] := by
        cases htext : natText m with
        | nil => rfl
        | cons c t =>
          have hdigit := natText_digits m c (by rw [htext]; exact List.mem_cons_self)
          rw [scanSign, if_neg]
          intro hmem
          rw [List.mem_singleton.mp hmem] at hdigit
          exact absurd hdigit (by decide)
      show scanNumber (natText m) = _
      unfold scanNumber
      dsimp only
      rw [hsign, List.length_nil, List.drop_zero, hscan, if_neg hne, List.drop_length]
      rfl
    · unfold readInt
      dsimp only
      rw [foldl_natText]
      rfl
  | negSucc m =>
    obtain ⟨hscan, hne⟩ := scanInt_natText (m + 1)
    refine ⟨⟨ofText "-", natText (m + 1), [], []⟩, ?_, by simp [Number.text, intText, ofText], rfl, ?_⟩
    · show scanNumber (ofChar '-' :: natText (m + 1)) = _
      unfold scanNumber
      dsimp only
      have hsign : scanSign (ofText "-") (ofChar '-' :: natText (m + 1)) = ofText "-" := rfl
      have hdrop : (ofChar '-' :: natText (m + 1)).drop (ofText "-").length = natText (m + 1) := rfl
      rw [hsign, hdrop, hscan, if_neg hne, List.drop_length]
      rfl
    · unfold readInt
      dsimp only
      rw [foldl_natText, if_neg (by decide)]
      rfl

end Numbers

/-! ## Values -/

section Values

variable {F : Type} {f : FloatFormat F} {sp : Spacing} {s t rest : CodePoints} {c : CodePoint} {m : Int} {x : F}
  {v : Value F} {fuel : Nat} {hook : List (CodePoints × Value F) → List (CodePoints × Value F)}

/-- What an atom begins with: no quote, bracket, brace or blank. -/
def startsAtom (c : CodePoint) : Bool := c ∈ ofText "ntfNI-" || isDigit c

/-- What starts an atom starts neither a string nor a container, and closes none. -/
theorem startsAtom_spec (h : startsAtom c = true) :
    c ≠ quote ∧ c ≠ ofChar '[' ∧ c ≠ ofChar '\x7b' ∧ c ≠ ofChar ']' ∧ c ≠ ofChar '\x7d' ∧ isBlank c = false := by
  have hnot : ∀ d : CodePoint, startsAtom d = false → c ≠ d := by
    intro d hd heq
    rw [heq, hd] at h
    cases h
  refine ⟨hnot _ (by decide), hnot _ (by decide), hnot _ (by decide), hnot _ (by decide), hnot _ (by decide), ?_⟩
  have hall : (ofText " \t\n\r").all (fun d => !startsAtom d) = true := by decide
  unfold isBlank
  rw [decide_eq_false_iff_not]
  intro hmem
  have hc := List.all_eq_true.mp hall c hmem
  rw [h] at hc
  cases hc

/-- A number, as it is read whatever ends the value. -/
theorem readAtom_number {n : Number} (hscan : scanNumber s = some n) (htext : n.text = s)
    (hends : Ends rest) : readAtom f (s ++ rest) =
      some (if n.frac ++ n.exp = [] then .int (readInt n.sign n.int) else .float (f.read s), rest) := by
  unfold readAtom
  rw [scanNumber_append hends, hscan]
  dsimp only
  rw [htext, List.drop_left]

/-- An integer is read back, whatever may end it. -/
theorem readAtom_int (hends : Ends rest) : readAtom f (intText m ++ rest) = some (.int m, rest) := by
  obtain ⟨n, hscan, htext, hinteger, hread⟩ := scanNumber_intText m
  rw [readAtom_number hscan htext hends, if_pos hinteger, hread]

theorem readAtom_float (x : F) (hends : Ends rest) :
    readAtom f (f.write x ++ rest) = some (.float x, rest) := by
  have hread : (Value.float (f.read (f.write x)) : Value F) = .float x := by rw [f.read_write]
  rcases f.written x with hconstant | ⟨n, hscan, htext, hfloat⟩
  · -- none of the constants is a number, and none begins like a word or another constant
    rw [← hread]
    unfold readAtom
    rw [scanNumber_append hends]
    unfold constants at hconstant ⊢
    rw [List.mem_cons, List.mem_cons, List.mem_singleton] at hconstant
    rcases hconstant with h | h | h <;> rw [h] <;> rfl
  · rw [readAtom_number hscan htext hends, if_neg hfloat, hread]

theorem readAtom_null (hends : Ends rest) : readAtom f (ofText "null" ++ rest) = some (.null, rest) := by
  have hscan : scanNumber (ofText "null") = none := by decide
  unfold readAtom
  rw [scanNumber_append hends, hscan]
  rfl

theorem readAtom_true (hends : Ends rest) :
    readAtom f (ofText "true" ++ rest) = some (.bool true, rest) := by
  have hscan : scanNumber (ofText "true") = none := by decide
  unfold readAtom
  rw [scanNumber_append hends, hscan]
  rfl

theorem readAtom_false (hends : Ends rest) :
    readAtom f (ofText "false" ++ rest) = some (.bool false, rest) := by
  have hscan : scanNumber (ofText "false") = none := by decide
  unfold readAtom
  rw [scanNumber_append hends, hscan]
  rfl

/-- A number starts as an atom does. -/
theorem startsAtom_of_scanNumber {n : Number} (h : scanNumber s = some n) :
    ∃ c t, s = c :: t ∧ startsAtom c = true := by
  obtain ⟨c, t, hs, hc⟩ := scanNumber_head h
  refine ⟨c, t, hs, ?_⟩
  rcases hc with rfl | hc
  · decide
  · unfold startsAtom
    rw [hc, Bool.or_true]

theorem startsAtom_intText (m : Int) : ∃ c t, intText m = c :: t ∧ startsAtom c = true := by
  obtain ⟨n, hscan, -⟩ := scanNumber_intText m
  exact startsAtom_of_scanNumber hscan

theorem startsAtom_write (x : F) : ∃ c t, f.write x = c :: t ∧ startsAtom c = true := by
  rcases f.written x with hconstant | ⟨n, hscan, -⟩
  · have hall : constants.all (fun w => w.head?.any startsAtom) = true := by decide
    have hhead := List.all_eq_true.mp hall _ hconstant
    cases hw : f.write x with
    | nil =>
      rw [hw] at hhead
      cases hhead
    | cons c t =>
      rw [hw] at hhead
      exact ⟨c, t, rfl, hhead⟩
  · exact startsAtom_of_scanNumber hscan

/-- A value that is no string, list or object is written as an atom. -/
theorem readValue_atom (hs : ∃ c t, s = c :: t ∧ startsAtom c = true) :
    readValue f hook (fuel + 1) (s ++ rest) = readAtom f (s ++ rest) := by
  obtain ⟨c, t, rfl, hc⟩ := hs
  obtain ⟨hquote, hbracket, hbrace, -⟩ := startsAtom_spec hc
  rw [List.cons_append, readValue, if_neg hquote, if_neg hbracket, if_neg hbrace]

/-- What a value begins with: no blank and nothing that closes a list or an object. -/
theorem dump_head (v : Value F) : ∃ c t, dump f sp v = c :: t ∧ isBlank c = false ∧ c ≠ ofChar ']' ∧
    c ≠ ofChar '\x7d' := by
  have hatom : ∀ s : CodePoints, (∃ c t, s = c :: t ∧ startsAtom c = true) →
      ∃ c t, s = c :: t ∧ isBlank c = false ∧ c ≠ ofChar ']' ∧ c ≠ ofChar '\x7d' := by
    intro s hs
    obtain ⟨c, t, hs, hc⟩ := hs
    obtain ⟨-, -, -, hbracket, hbrace, hblank⟩ := startsAtom_spec hc
    exact ⟨c, t, hs, hblank, hbracket, hbrace⟩
  cases v with
  | null => exact hatom _ ⟨ofChar 'n', ofText "ull", rfl, by decide⟩
  | bool b =>
    cases b with
    | true => exact hatom _ ⟨ofChar 't', ofText "rue", rfl, by decide⟩
    | false => exact hatom _ ⟨ofChar 'f', ofText "alse", rfl, by decide⟩
  | int m => exact hatom _ (startsAtom_intText m)
  | float x => exact hatom _ (startsAtom_write x)
  | str s => exact ⟨quote, escape s ++ [quote], rfl, by decide, by decide, by decide⟩
  | arr items =>
    cases items with
    | nil => exact ⟨ofChar '[', [ofChar ']'], rfl, by decide, by decide, by decide⟩
    | cons v items => exact ⟨ofChar '[', _, rfl, by decide, by decide, by decide⟩
  | obj fields =>
    cases fields with
    | nil => exact ⟨ofChar '\x7b', [ofChar '\x7d'], rfl, by decide, by decide, by decide⟩
    | cons x fields => exact ⟨ofChar '\x7b', _, rfl, by decide, by decide, by decide⟩

/-- The text of a value starts with no blank. -/
theorem skip_dump (v : Value F) (t : CodePoints) : skip (dump f sp v ++ t) = dump f sp v ++ t := by
  obtain ⟨c, u, hdump, hblank, -⟩ := @dump_head F f sp v
  unfold skip
  rw [hdump, List.cons_append, List.dropWhile_cons_of_neg (by rw [hblank]; simp)]

/-- The blanks before a value. -/
theorem skip_text_dump (v : Value F) (t : CodePoints) :
    skip (sp.text ++ dump f sp v ++ t) = dump f sp v ++ t := by
  rw [List.append_assoc]
  cases sp with
  | compact => exact skip_dump v t
  | spaced =>
    show skip (ofChar ' ' :: (dump f .spaced v ++ t)) = _
    unfold skip
    rw [List.dropWhile_cons_of_pos (by decide)]
    exact skip_dump v t

/-- Nothing is skipped where no blank stands. -/
theorem skip_cons (h : isBlank c = false) : skip (c :: t) = c :: t := by
  unfold skip
  rw [List.dropWhile_cons_of_neg (by rw [h]; simp)]

/-- The blanks before a string. -/
theorem skip_text_dumpString (k : CodePoints) :
    skip (sp.text ++ dumpString k ++ t) = dumpString k ++ t := by
  cases sp with
  | compact => exact skip_cons (by decide)
  | spaced =>
    show skip (ofChar ' ' :: (dumpString k ++ t)) = _
    unfold skip
    rw [List.dropWhile_cons_of_pos (by decide)]
    exact skip_cons (by decide)

/-- One field, behind which comes `t`. -/
theorem readFields_dump (k : CodePoints)
    (hv : readValue f hook fuel (dump f sp v ++ t) = some (rereadWith hook v, t)) :
    readFields f hook (fuel + 1) (dumpString k ++ ofChar ':' :: (sp.text ++ dump f sp v ++ t)) =
      if (skip t).head? = some (ofChar ',') then
        (readFields f hook fuel (skip ((skip t).drop 1))).map fun x => ((pair k, rereadWith hook v) :: x.1, x.2)
      else if (skip t).head? = some (ofChar '\x7d') then
        some ([(pair k, rereadWith hook v)], (skip t).drop 1)
      else none := by
  obtain ⟨u, htext, hread⟩ := readString_dumpString k (ofChar ':' :: (sp.text ++ dump f sp v ++ t))
  rw [htext, readFields, if_neg (by simp), hread]
  dsimp only
  rw [skip_cons (by decide), if_neg (by simp), List.drop_one, List.tail_cons, skip_text_dump, hv]

mutual

/-- **A value that was written is read back**, whatever ends it. -/
theorem readValue_dump : ∀ (v : Value F) (fuel : Nat) (rest : CodePoints),
    2 * (dump f sp v).length ≤ fuel → Ends rest →
      -- by recursion on the value; the fuel is twice the length of its text
      readValue f hook fuel (dump f sp v ++ rest) = some (rereadWith hook v, rest)
  | v, 0, rest, hfuel, hends => by
    obtain ⟨c, t, hdump, -⟩ := @dump_head F f sp v
    rw [hdump, List.length_cons] at hfuel
    omega
  | .null, fuel + 1, rest, hfuel, hends => by
    have hstarts : ∃ c t, ofText "null" = c :: t ∧ startsAtom c = true := ⟨ofChar 'n', ofText "ull", rfl, by decide⟩
    rw [dump, readValue_atom hstarts, readAtom_null hends, rereadWith]
  | .bool true, fuel + 1, rest, hfuel, hends => by
    have hstarts : ∃ c t, ofText "true" = c :: t ∧ startsAtom c = true := ⟨ofChar 't', ofText "rue", rfl, by decide⟩
    rw [dump, readValue_atom hstarts, readAtom_true hends, rereadWith]
  | .bool false, fuel + 1, rest, hfuel, hends => by
    have hstarts : ∃ c t, ofText "false" = c :: t ∧ startsAtom c = true := ⟨ofChar 'f', ofText "alse", rfl, by decide⟩
    rw [dump, readValue_atom hstarts, readAtom_false hends, rereadWith]
  | .int m, fuel + 1, rest, hfuel, hends => by
    rw [dump, readValue_atom (startsAtom_intText m), readAtom_int hends, rereadWith]
  | .float x, fuel + 1, rest, hfuel, hends => by
    rw [dump, readValue_atom (startsAtom_write x), readAtom_float x hends, rereadWith]
  | .str s, fuel + 1, rest, hfuel, hends => by
    obtain ⟨u, htext, hread⟩ := readString_dumpString s rest
    rw [dump, htext, readValue, if_pos rfl, hread, rereadWith]
    rfl
  | .arr [], fuel + 1, rest, hfuel, hends => by
    show readValue f hook (fuel + 1) (ofChar '[' :: ofChar ']' :: rest) = _
    rw [readValue, if_neg (by decide), if_pos rfl, skip_cons (by decide), List.head?_cons, if_pos rfl]
    rfl
  -- an array is read item by item, an object field by field
  | .arr (v :: items), fuel + 1, rest, hfuel, hends => by
    obtain ⟨c, t, hdump, -, hbracket, -⟩ := @dump_head F f sp v
    have hopen : (dump f sp v ++ (dumpItems f sp items ++ rest)).head? ≠ some (ofChar ']') := by
      rw [hdump, List.cons_append, List.head?_cons, Ne, Option.some.injEq]
      exact hbracket
    rw [dump, List.length_cons, List.length_append] at hfuel
    rw [dump, List.cons_append, List.append_assoc, readValue, if_neg (by decide), if_pos rfl, skip_dump,
      if_neg hopen, readItems_dumpItems items v fuel rest (readValue_dump v) (by omega), rereadWith,
      rereadItems]
    rfl
  | .obj [], fuel + 1, rest, hfuel, hends => by
    show readValue f hook (fuel + 1) (ofChar '\x7b' :: ofChar '\x7d' :: rest) = _
    rw [readValue, if_neg (by decide), if_neg (by decide), if_pos rfl, skip_cons (by decide), List.head?_cons, if_pos rfl]
    rfl
  | .obj ((k, v) :: fields), fuel + 1, rest, hfuel, hends => by
    have htext : dump f sp (.obj ((k, v) :: fields)) ++ rest = ofChar '\x7b' :: (dumpString k ++
        ofChar ':' :: (sp.text ++ dump f sp v ++ (dumpFields f sp fields ++ rest))) := by
      rw [dump]
      simp only [List.cons_append, List.append_assoc]
    have hskip : ∀ u, skip (dumpString k ++ u) = dumpString k ++ u := fun u => skip_cons (by decide)
    have hopen : ∀ u, (dumpString k ++ u).head? ≠ some (ofChar '\x7d') := fun u => by
      show some quote ≠ _
      decide
    rw [dump, List.length_cons, List.length_append, List.length_cons, List.length_append,
      List.length_append] at hfuel
    rw [htext, readValue, if_neg (by decide), if_neg (by decide), if_pos rfl, hskip, if_neg (hopen _),
      readFields_dumpFields fields k v fuel rest (readValue_dump v) (by omega), rereadWith, rereadFields]
    rfl

/-- The items of a list, of which the first is read. -/
theorem readItems_dumpItems : ∀ (items : List (Value F)) (v : Value F) (fuel : Nat) (rest : CodePoints),
    (∀ fuel rest, 2 * (dump f sp v).length ≤ fuel → Ends rest →
      readValue f hook fuel (dump f sp v ++ rest) = some (rereadWith hook v, rest)) →
    2 * ((dump f sp v).length + (dumpItems f sp items).length) + 1 ≤ fuel →
      readItems f hook fuel (dump f sp v ++ (dumpItems f sp items ++ rest)) =
        some (rereadWith hook v :: rereadItems hook items, rest)
  | _, _, 0, _, _, hfuel => by omega
  | [], v, fuel + 1, rest, hv, hfuel => by
    have hread := hv fuel (ofChar ']' :: rest) (by omega) (ends_cons (by decide))
    show readItems f hook (fuel + 1) (dump f sp v ++ ofChar ']' :: rest) = _
    rw [readItems, hread]
    dsimp only
    rw [skip_cons (by decide), List.head?_cons, if_neg (by decide), if_pos rfl, rereadItems]
    rfl
  | w :: items, v, fuel + 1, rest, hv, hfuel => by
    obtain ⟨c, t, hdump, -⟩ := @dump_head F f sp v
    have hpos : 0 < (dump f sp v).length := by
      rw [hdump, List.length_cons]
      omega
    rw [dumpItems, List.length_cons, List.length_append, List.length_append] at hfuel
    have hread := hv fuel (ofChar ',' :: (sp.text ++ dump f sp w ++ (dumpItems f sp items ++ rest)))
      (by omega) (ends_cons (by decide))
    rw [dumpItems, List.cons_append, List.append_assoc, readItems, hread]
    dsimp only
    rw [skip_cons (by decide), List.head?_cons, if_pos rfl, List.drop_one, List.tail_cons, skip_text_dump,
      readItems_dumpItems items w fuel rest (readValue_dump w) (by omega), @rereadItems.eq_2]
    rfl

/-- The fields of an object, of which the value of the first is read. -/
theorem readFields_dumpFields : ∀ (fields : List (CodePoints × Value F)) (k : CodePoints) (v : Value F)
    (fuel : Nat) (rest : CodePoints),
    (∀ fuel rest, 2 * (dump f sp v).length ≤ fuel → Ends rest →
      readValue f hook fuel (dump f sp v ++ rest) = some (rereadWith hook v, rest)) →
    2 * ((dump f sp v).length + (dumpFields f sp fields).length) + 1 ≤ fuel →
      readFields f hook fuel (dumpString k ++ ofChar ':' ::
        (sp.text ++ dump f sp v ++ (dumpFields f sp fields ++ rest))) =
        some ((pair k, rereadWith hook v) :: rereadFields hook fields, rest)
  | _, _, _, 0, _, _, hfuel => by omega
  | [], k, v, fuel + 1, rest, hv, hfuel => by
    have hread := hv fuel (ofChar '\x7d' :: rest) (by omega) (ends_cons (by decide))
    show readFields f hook (fuel + 1) (dumpString k ++ ofChar ':' ::
      (sp.text ++ dump f sp v ++ ofChar '\x7d' :: rest)) = _
    rw [readFields_dump k hread, skip_cons (by decide), List.head?_cons, if_neg (by decide),
      if_pos rfl, rereadFields]
    rfl
  | (k', w) :: fields, k, v, fuel + 1, rest, hv, hfuel => by
    obtain ⟨c, t, hdump, -⟩ := @dump_head F f sp v
    have hpos : 0 < (dump f sp v).length := by
      rw [hdump, List.length_cons]
      omega
    have htext : dumpFields f sp ((k', w) :: fields) ++ rest = ofChar ',' :: (sp.text ++ dumpString k' ++
        ofChar ':' :: (sp.text ++ dump f sp w ++ (dumpFields f sp fields ++ rest))) := by
      rw [dumpFields]
      simp only [List.cons_append, List.append_assoc]
    rw [dumpFields, List.length_cons, List.length_append, List.length_append, List.length_cons,
      List.length_append, List.length_append] at hfuel
    have hread := hv fuel (ofChar ',' :: (sp.text ++ dumpString k' ++
      ofChar ':' :: (sp.text ++ dump f sp w ++ (dumpFields f sp fields ++ rest)))) (by omega)
      (ends_cons (by decide))
    rw [htext, readFields_dump k hread, skip_cons (by decide), List.head?_cons, if_pos rfl, List.drop_one, List.tail_cons,
      skip_text_dumpString, readFields_dumpFields fields k' w fuel rest (readValue_dump w) (by omega),
      @rereadFields.eq_2]
    rfl

end

/-- **A text that was written is read.** -/
theorem read_dump (v : Value F) : read f hook (dump f sp v) = some (rereadWith hook v) := by
  have hskip := @skip_dump F f sp v []
  have hread := @readValue_dump F f sp hook v (2 * (dump f sp v).length + 1) [] (by omega) ends_nil
  rw [List.append_nil] at hskip hread
  unfold read
  rw [hskip, hread]
  rfl

end Values

/-! ## The canonical text -/

section Canonical

variable {F : Type}

/-- Whether the keys of an object are distinct and in the same order when their surrogates are paired. -/
def KeepsOrder (keys : List CodePoints) : Prop :=
  keys.Nodup ∧ ∀ k ∈ keys, ∀ k' ∈ keys, k < k' → pair k < pair k'

instance (keys : List CodePoints) : Decidable (KeepsOrder keys) :=
  inferInstanceAs (Decidable (_ ∧ _))

mutual

/-- Whether that is so in every object. -/
def keepsKeys : Value F → Bool
  | .arr items => keepsItems items
  | .obj fields => decide (KeepsOrder (Dict.keys fields)) && keepsFields fields
  | _ => true

def keepsItems : List (Value F) → Bool
  | [] => true
  | v :: items => keepsKeys v && keepsItems items

def keepsFields : List (CodePoints × Value F) → Bool
  | [] => true
  | (_, v) :: fields => keepsKeys v && keepsFields fields

end

section Maps

variable {f : FloatFormat F} {sp : Spacing} {items : List (Value F)} {fields : List (CodePoints × Value F)}
  {hook : List (CodePoints × Value F) → List (CodePoints × Value F)} {v : Value F} {P : Value F → Prop}

mutual

/-- What holds of a value if it holds of its items, or of the values of its fields. -/
theorem Value.induct (hnull : P .null) (hbool : ∀ b, P (.bool b)) (hint : ∀ n, P (.int n))
    (hfloat : ∀ x, P (.float x)) (hstr : ∀ s, P (.str s))
    (harr : ∀ items, (∀ v ∈ items, P v) → P (.arr items))
    (hobj : ∀ fields, (∀ x ∈ fields, P x.2) → P (.obj fields)) : ∀ v, P v
  | .null => hnull
  | .bool b => hbool b
  | .int n => hint n
  | .float x => hfloat x
  | .str s => hstr s
  | .arr items => harr items (Value.inductItems hnull hbool hint hfloat hstr harr hobj items)
  | .obj fields => hobj fields (Value.inductFields hnull hbool hint hfloat hstr harr hobj fields)

/-- The induction over the items of an array. -/
theorem Value.inductItems (hnull : P .null) (hbool : ∀ b, P (.bool b)) (hint : ∀ n, P (.int n))
    (hfloat : ∀ x, P (.float x)) (hstr : ∀ s, P (.str s))
    (harr : ∀ items, (∀ v ∈ items, P v) → P (.arr items))
    (hobj : ∀ fields, (∀ x ∈ fields, P x.2) → P (.obj fields)) :
    ∀ items : List (Value F), ∀ v ∈ items, P v
  | [] => fun _ hv => (List.not_mem_nil hv).elim
  | w :: items => fun v hv => by
    rcases List.mem_cons.mp hv with heq | hv
    · rw [heq]
      exact Value.induct hnull hbool hint hfloat hstr harr hobj w
    · exact Value.inductItems hnull hbool hint hfloat hstr harr hobj items v hv

/-- The induction over the fields of an object. -/
theorem Value.inductFields (hnull : P .null) (hbool : ∀ b, P (.bool b)) (hint : ∀ n, P (.int n))
    (hfloat : ∀ x, P (.float x)) (hstr : ∀ s, P (.str s))
    (harr : ∀ items, (∀ v ∈ items, P v) → P (.arr items))
    (hobj : ∀ fields, (∀ x ∈ fields, P x.2) → P (.obj fields)) :
    ∀ fields : List (CodePoints × Value F), ∀ x ∈ fields, P x.2
  | [] => fun _ hx => (List.not_mem_nil hx).elim
  | (k, w) :: fields => fun x hx => by
    rcases List.mem_cons.mp hx with heq | hx
    · rw [heq]
      exact Value.induct hnull hbool hint hfloat hstr harr hobj w
    · exact Value.inductFields hnull hbool hint hfloat hstr harr hobj fields x hx

end

/-- Sorting the items of an array is sorting each. -/
theorem sortItems_eq_map (items : List (Value F)) : sortItems items = items.map sortKeys := by
  induction items with
  | nil => rfl
  | cons v items ih => rw [sortItems, ih, List.map_cons]

/-- Sorting below the fields is sorting each value. -/
theorem sortFields_eq_map (fields : List (CodePoints × Value F)) :
    sortFields fields = fields.map fun x => (x.1, sortKeys x.2) := by
  induction fields with
  | nil => rfl
  | cons x fields ih => rw [sortFields, ih, List.map_cons]

/-- Reading items again is reading each. -/
theorem rereadItems_eq_map (items : List (Value F)) :
    rereadItems hook items = items.map (rereadWith hook) := by
  induction items with
  | nil => rfl
  | cons v items ih => rw [rereadItems, ih, List.map_cons]

/-- Reading fields again joins the surrogates of each key, and reads each value. -/
theorem rereadFields_eq_map (fields : List (CodePoints × Value F)) :
    rereadFields hook fields = fields.map fun x => (pair x.1, rereadWith hook x.2) := by
  induction fields with
  | nil => rfl
  | cons x fields ih => rw [rereadFields, ih, List.map_cons]

/-- The items of an array keep their keys when each does. -/
theorem keepsItems_iff (items : List (Value F)) :
    keepsItems items = true ↔ ∀ v ∈ items, keepsKeys v = true := by
  induction items with
  | nil => exact ⟨fun _ v hv => (List.not_mem_nil hv).elim, fun _ => rfl⟩
  | cons v items ih => rw [keepsItems, Bool.and_eq_true, ih, List.forall_mem_cons]

theorem keepsFields_iff (fields : List (CodePoints × Value F)) :
    keepsFields fields = true ↔ ∀ x ∈ fields, keepsKeys x.2 = true := by
  induction fields with
  | nil => exact ⟨fun _ x hx => (List.not_mem_nil hx).elim, fun _ => rfl⟩
  | cons x fields ih => rw [keepsFields, Bool.and_eq_true, ih, List.forall_mem_cons]

/-! ### Pairing alone changes no text -/

/-- Items are written alike when each of them is. -/
theorem dumpItems_congr {g : Value F → Value F} (h : ∀ v ∈ items, dump f sp (g v) = dump f sp v) :
    dumpItems f sp (items.map g) = dumpItems f sp items := by
  induction items with
  | nil => rfl
  | cons v items ih =>
    rw [List.map_cons, dumpItems, dumpItems, h v List.mem_cons_self,
      ih fun w hw => h w (List.mem_cons_of_mem _ hw)]

/-- A string is written the same with its surrogates joined: each pair is written in two escapes. -/
theorem dumpString_pair (s : CodePoints) : dumpString (pair s) = dumpString s := by
  unfold dumpString
  rw [escape_pair]

/-- Fields are written alike when each value is, with the keys joined or not. -/
theorem dumpFields_congr {g : Value F → Value F} (h : ∀ x ∈ fields, dump f sp (g x.2) = dump f sp x.2) :
    dumpFields f sp (fields.map fun x => (pair x.1, g x.2)) = dumpFields f sp fields := by
  induction fields with
  | nil => rfl
  | cons x fields ih =>
    rw [List.map_cons, dumpFields, dumpFields, h x List.mem_cons_self, dumpString_pair,
      ih fun y hy => h y (List.mem_cons_of_mem _ hy)]

/-- A value is written as the value its text is read to. -/
theorem dump_rereadWith_id (v : Value F) : dump f sp (rereadWith id v) = dump f sp v := by
  induction v using Value.induct with
  | hnull => rfl
  | hbool b => rfl
  | hint n => rfl
  | hfloat x => rfl
  | hstr s => rw [rereadWith, dump, dump, dumpString_pair]
  | harr items ih =>
    rw [rereadWith, rereadItems_eq_map]
    cases items with
    | nil => rfl
    | cons v items =>
      rw [List.map_cons, dump, dump, ih v List.mem_cons_self,
        dumpItems_congr fun w hw => ih w (List.mem_cons_of_mem _ hw)]
  | hobj fields ih =>
    rw [rereadWith, rereadFields_eq_map, id]
    cases fields with
    | nil => rfl
    | cons x fields =>
      rw [List.map_cons, dump, dump, ih x List.mem_cons_self, dumpString_pair,
        dumpFields_congr fun y hy => ih y (List.mem_cons_of_mem _ hy)]

/-! ### What has been read is paired -/

/-- A value read once is not changed by a second reading. -/
theorem rereadWith_id_rereadWith (hhook : ∀ l, ∀ x ∈ hook l, x ∈ l) (v : Value F) :
    rereadWith id (rereadWith hook v) = rereadWith hook v := by
  induction v using Value.induct with
  | hnull => rfl
  | hbool b => rfl
  | hint n => rfl
  | hfloat x => rfl
  | hstr s => rw [rereadWith, rereadWith, pair_pair]
  | harr items ih =>
    rw [rereadWith, rereadWith, rereadItems_eq_map, rereadItems_eq_map, List.map_map]
    exact congrArg _ (List.map_congr_left ih)
  | hobj fields ih =>
    rw [rereadWith, rereadWith, rereadFields_eq_map, rereadFields_eq_map, id]
    apply congrArg
    conv => rhs; rw [← List.map_id (hook _)]
    apply List.map_congr_left
    intro x hx
    obtain ⟨y, hy, rfl⟩ := List.mem_map.mp (hhook _ x hx)
    show (pair (pair y.1), rereadWith id (rereadWith hook y.2)) = _
    rw [pair_pair, ih y hy]
    rfl

/-- Nor does sorting the keys of such a value make it one that changes. -/
theorem rereadWith_id_sortKeys (h : rereadWith id v = v) : rereadWith id (sortKeys v) = sortKeys v := by
  induction v using Value.induct with
  | hnull => rfl
  | hbool b => rfl
  | hint n => rfl
  | hfloat x => rfl
  | hstr s => exact h
  | harr items ih =>
    rw [rereadWith, rereadItems_eq_map, Value.arr.injEq] at h
    rw [sortKeys, sortItems_eq_map, rereadWith, rereadItems_eq_map, List.map_map]
    apply congrArg
    apply List.map_congr_left
    intro v hv
    have hmap : items.map (rereadWith id) = items.map id := by rw [h, List.map_id]
    exact ih v hv (List.map_inj_left.mp hmap v hv)
  | hobj fields ih =>
    rw [rereadWith, rereadFields_eq_map, id, Value.obj.injEq] at h
    rw [sortKeys, sortFields_eq_map, rereadWith, rereadFields_eq_map, id]
    apply congrArg
    conv => rhs; rw [← List.map_id (List.mergeSort _ _)]
    apply List.map_congr_left
    intro x hx
    rw [List.mem_mergeSort, List.mem_map] at hx
    obtain ⟨y, hy, rfl⟩ := hx
    have hmap : fields.map (fun x => (pair x.1, rereadWith id x.2)) = fields.map id := by
      rw [h, List.map_id]
    have hy' := List.map_inj_left.mp hmap y hy
    have hkey : pair y.1 = y.1 := congrArg Prod.fst hy'
    have hvalue : rereadWith id y.2 = y.2 := congrArg Prod.snd hy'
    show (pair y.1, rereadWith id (sortKeys y.2)) = (y.1, sortKeys y.2)
    rw [hkey, ih y hy hvalue]

/-! ### The order of the keys -/

/-- The order of the keys is transitive. -/
theorem keyLe_trans (x y z : CodePoints × Value F) (hxy : keyLe x y = true) (hyz : keyLe y z = true) :
    keyLe x z = true := by
  unfold keyLe at hxy hyz ⊢
  rw [decide_eq_true_eq] at hxy hyz ⊢
  exact le_trans hxy hyz

/-- It is total. -/
theorem keyLe_total (x y : CodePoints × Value F) : (keyLe x y || keyLe y x) = true := by
  unfold keyLe
  rw [Bool.or_eq_true, decide_eq_true_eq, decide_eq_true_eq]
  exact le_total x.1 y.1

/-- The keys are sorted by it. -/
theorem keys_mergeSort_pairwise (fields : List (CodePoints × Value F)) :
    (Dict.keys (fields.mergeSort keyLe)).Pairwise (· ≤ ·) := by
  unfold Dict.keys
  rw [List.pairwise_map]
  have hsorted := List.pairwise_mergeSort keyLe_trans keyLe_total fields
  exact hsorted.imp fun h => of_decide_eq_true h

/-- Sorting keeps the keys. -/
theorem keys_mergeSort_perm (fields : List (CodePoints × Value F)) :
    (Dict.keys (fields.mergeSort keyLe)).Perm (Dict.keys fields) :=
  (List.mergeSort_perm fields keyLe).map _

/-- Distinct keys are in strict order once they are sorted. -/
theorem keys_mergeSort_lt (h : (Dict.keys fields).Nodup) :
    (Dict.keys (fields.mergeSort keyLe)).Pairwise (· < ·) := by
  have hnodup := (keys_mergeSort_perm fields).nodup_iff.mpr h
  exact (keys_mergeSort_pairwise fields).imp₂ (fun _ _ hle hne => lt_of_le_of_ne hle hne) hnodup

/-- Sorted keys that are in strict order when they are paired keep their order. -/
theorem keepsOrder_of_pairwise
    (h : ((Dict.keys (fields.mergeSort keyLe)).map pair).Pairwise (· < ·)) :
    KeepsOrder (Dict.keys fields) := by
  have hperm := keys_mergeSort_perm fields
  rw [List.pairwise_map] at h
  constructor
  · apply hperm.nodup_iff.mp
    exact h.imp fun hlt heq => by
      rw [heq] at hlt
      exact lt_irrefl _ hlt
  · intro k hk k' hk' hlt
    -- one of the two stands before the other in the sorted list, and it is the smaller
    have hboth : (Dict.keys (fields.mergeSort keyLe)).Pairwise fun a b =>
        (a ≤ b ∧ pair a < pair b) ∨ (b ≤ a ∧ pair b < pair a) :=
      ((keys_mergeSort_pairwise fields).and h).imp .inl
    have hsymm : Std.Symm fun a b : CodePoints =>
        (a ≤ b ∧ pair a < pair b) ∨ (b ≤ a ∧ pair b < pair a) := ⟨fun _ _ => Or.symm⟩
    have hrelated := hboth.forall (hperm.mem_iff.mpr hk) (hperm.mem_iff.mpr hk') (ne_of_lt hlt)
    rcases hrelated with ⟨-, h⟩ | ⟨hle, -⟩
    · exact h
    · exact absurd hlt (not_lt.mpr hle)

/-- The fields of an object that has been read, in the order of their keys. -/
theorem mergeSort_reread (hkeeps : KeepsOrder (Dict.keys fields)) (g : Value F → Value F) :
    (Dict.ofPairs (fields.map fun x => (pair x.1, g x.2))).mergeSort keyLe =
      (fields.mergeSort keyLe).map fun x => (pair x.1, g x.2) := by
  obtain ⟨hnodup, hmono⟩ := hkeeps
  have hmem : ∀ {x : CodePoints × Value F}, x ∈ fields → x.1 ∈ Dict.keys fields := fun hx =>
    List.mem_map_of_mem hx
  have hle : ∀ x ∈ fields, ∀ y ∈ fields, keyLe x y = keyLe (pair x.1, g x.2) (pair y.1, g y.2) := by
    intro x hx y hy
    unfold keyLe
    apply decide_eq_decide.mpr
    constructor
    · intro h
      rcases eq_or_lt_of_le h with heq | hlt
      · exact le_of_eq (congrArg pair heq)
      · exact le_of_lt (hmono _ (hmem hx) _ (hmem hy) hlt)
    · intro h
      by_contra hlt
      have hpair := hmono _ (hmem hy) _ (hmem hx) (not_le.mp hlt)
      exact absurd h (not_le.mpr hpair)
  have hkeys : Dict.keys (fields.map fun x => (pair x.1, g x.2)) = (Dict.keys fields).map pair := by
    unfold Dict.keys
    rw [List.map_map, List.map_map]
    rfl
  have hdistinct : (Dict.keys (fields.map fun x => (pair x.1, g x.2))).Nodup := by
    rw [hkeys]
    apply hnodup.map_on
    intro k hk k' hk' heq
    rcases lt_trichotomy k k' with hlt | heq' | hlt
    · exact absurd heq (ne_of_lt (hmono k hk k' hk' hlt))
    · exact heq'
    · exact absurd heq.symm (ne_of_lt (hmono k' hk' k hk hlt))
  rw [Dict.ofPairs_of_nodup hdistinct]
  exact (List.map_mergeSort hle).symm

/-- Every field of the dictionary is one of the pairs, so that it may be the hook of a reading. -/
theorem mem_of_mem_ofPairs (l : List (CodePoints × Value F)) :
    ∀ x ∈ Dict.ofPairs l, x ∈ l := fun _ hx => Dict.mem_of_mem_ofPairs hx

/-- An object that has been read sorts as it was sorted before if and only if its keys keep their order
and its values do likewise. -/
theorem sortKeys_reread_obj :
    sortKeys (reread (.obj fields)) = rereadWith id (sortKeys (.obj fields)) ↔
      KeepsOrder (Dict.keys fields) ∧
        ∀ x ∈ fields, sortKeys (reread x.2) = rereadWith id (sortKeys x.2) := by
  have hread : sortKeys (reread (.obj fields)) = .obj ((sortFields (Dict.ofPairs
      (fields.map fun x => (pair x.1, reread x.2)))).mergeSort keyLe) := by
    unfold reread
    rw [rereadWith, sortKeys, rereadFields_eq_map]
  have hsorted : rereadWith id (sortKeys (.obj fields)) =
      .obj ((fields.mergeSort keyLe).map fun x => (pair x.1, rereadWith id (sortKeys x.2))) := by
    rw [sortKeys, sortFields_eq_map, rereadWith, rereadFields_eq_map, id, ← List.map_mergeSort, List.map_map]
    · rfl
    · intro x _ y _
      rfl
  rw [hread, hsorted, Value.obj.injEq, sortFields_eq_map]
  -- the values are sorted inside whether before or after their keys
  have hmap : ∀ l : List (CodePoints × Value F), (l.map fun x => (x.1, sortKeys x.2)).mergeSort keyLe =
      (l.mergeSort keyLe).map fun x => (x.1, sortKeys x.2) := by
    intro l
    symm
    apply List.map_mergeSort
    intro x _ y _
    rfl
  rw [hmap]
  have hvalues : KeepsOrder (Dict.keys fields) →
      ((Dict.ofPairs (fields.map fun x => (pair x.1, reread x.2))).mergeSort keyLe).map
          (fun x => (x.1, sortKeys x.2)) =
        (fields.mergeSort keyLe).map fun x => (pair x.1, sortKeys (reread x.2)) := by
    intro hkeeps
    rw [mergeSort_reread hkeeps, List.map_map]
    rfl
  -- the keys are told first, and the values under each of them follow
  constructor
  · intro h
    have hkeeps : KeepsOrder (Dict.keys fields) := by
      apply keepsOrder_of_pairwise
      have hkeys := congrArg Dict.keys h
      have hleft : ∀ l : List (CodePoints × Value F),
          Dict.keys (l.map fun x => (x.1, sortKeys x.2)) = Dict.keys l := by
        intro l
        unfold Dict.keys
        rw [List.map_map]
        rfl
      have hright : Dict.keys ((fields.mergeSort keyLe).map
          fun x => (pair x.1, rereadWith id (sortKeys x.2))) =
          (Dict.keys (fields.mergeSort keyLe)).map pair := by
        unfold Dict.keys
        rw [List.map_map, List.map_map]
        rfl
      rw [hleft, hright] at hkeys
      rw [← hkeys]
      exact keys_mergeSort_lt Dict.nodup_ofPairs
    refine ⟨hkeeps, ?_⟩
    rw [hvalues hkeeps] at h
    intro x hx
    have hx' := List.map_inj_left.mp h x (List.mem_mergeSort.mpr hx)
    exact congrArg Prod.snd hx'
  · rintro ⟨hkeeps, h⟩
    rw [hvalues hkeeps]
    apply List.map_congr_left
    intro x hx
    rw [h x (List.mem_mergeSort.mp hx)]

/-- Sorting commutes with reading exactly when the keys keep their order. -/
theorem sortKeys_reread_iff (v : Value F) :
    sortKeys (reread v) = rereadWith id (sortKeys v) ↔ keepsKeys v = true := by
  induction v using Value.induct with
  | hnull => exact ⟨fun _ => rfl, fun _ => rfl⟩
  | hbool b => exact ⟨fun _ => rfl, fun _ => rfl⟩
  | hint n => exact ⟨fun _ => rfl, fun _ => rfl⟩
  | hfloat x => exact ⟨fun _ => rfl, fun _ => rfl⟩
  | hstr s => exact ⟨fun _ => rfl, fun _ => rfl⟩
  | harr items ih =>
    have hread : sortKeys (reread (.arr items)) = .arr (items.map fun v => sortKeys (reread v)) := by
      unfold reread
      rw [rereadWith, sortKeys, rereadItems_eq_map, sortItems_eq_map, List.map_map]
      rfl
    have hsorted : rereadWith id (sortKeys (.arr items)) =
        .arr (items.map fun v => rereadWith id (sortKeys v)) := by
      rw [sortKeys, rereadWith, sortItems_eq_map, rereadItems_eq_map, List.map_map]
      rfl
    rw [hread, hsorted, Value.arr.injEq, List.map_inj_left, keepsKeys, keepsItems_iff]
    exact forall₂_congr ih
  | hobj fields ih =>
    rw [sortKeys_reread_obj, keepsKeys, Bool.and_eq_true, decide_eq_true_eq, keepsFields_iff]
    exact and_congr Iff.rfl (forall₂_congr ih)

/-- **When a value that was written and read has its canonical text still**: in every object the keys
stay distinct and in their order when their surrogates are paired. -/
theorem canonical_reread_iff (v : Value F) :
    canonical f (reread v) = canonical f v ↔ keepsKeys v = true := by
  rw [← sortKeys_reread_iff]
  unfold canonical
  constructor
  · intro h
    have hpaired : rereadWith id (sortKeys (reread v)) = sortKeys (reread v) :=
      rereadWith_id_sortKeys (rereadWith_id_rereadWith mem_of_mem_ofPairs v)
    have hread := congrArg (read f id) h
    rw [read_dump, read_dump, hpaired, Option.some.injEq] at hread
    exact hread
  · intro h
    rw [h, dump_rereadWith_id]

end Maps

end Canonical

/-! ## What is written is ASCII -/

section Ascii

variable {F : Type} {f : FloatFormat F} {sp : Spacing} {s : CodePoints} {c : CodePoint}

def IsAscii (s : CodePoints) : Prop := ∀ c ∈ s, c.val < 0x80

/-- Two texts are ASCII when both are. -/
theorem isAscii_append {t : CodePoints} : IsAscii (s ++ t) ↔ IsAscii s ∧ IsAscii t := List.forall_mem_append

/-- A text is ASCII when its first character and the rest are. -/
theorem isAscii_cons : IsAscii (c :: s) ↔ c.val < 0x80 ∧ IsAscii s := List.forall_mem_cons

/-- The empty text is. -/
theorem isAscii_nil : IsAscii [] := nofun

/-- A text that is given is ASCII if its characters say so. -/
theorem isAscii_of_all (h : s.all (fun c => decide (c.val < 0x80)) = true) : IsAscii s :=
  fun c hc => of_decide_eq_true (List.all_eq_true.mp h c hc)

theorem isAscii_digits (h : ∀ c ∈ s, isDigit c = true) : IsAscii s := by
  intro c hc
  have hdigit := h c hc
  unfold isDigit at hdigit
  rw [Bool.and_eq_true, decide_eq_true_eq, decide_eq_true_eq] at hdigit
  have hle : c.val ≤ 57 := hdigit.2
  omega

theorem isAscii_takeWhile : IsAscii (s.takeWhile isDigit) :=
  isAscii_digits fun _ hc => List.mem_takeWhile_imp hc

theorem isAscii_scanSign {signs : CodePoints} (h : IsAscii signs) : IsAscii (scanSign signs s) := by
  cases s with
  | nil => exact isAscii_nil
  | cons c t =>
    rw [scanSign]
    split
    · rename_i hmem
      exact isAscii_cons.mpr ⟨h c hmem, isAscii_nil⟩
    · exact isAscii_nil

theorem isAscii_scanNumber {n : Number} (h : scanNumber s = some n) : IsAscii n.text := by
  have hint : ∀ s, IsAscii (scanInt s) := by
    intro s
    unfold scanInt
    split
    · exact isAscii_of_all (by decide)
    · exact isAscii_takeWhile
  have hfrac : ∀ s, IsAscii (scanFrac s) := by
    intro s
    cases s with
    | nil => exact isAscii_nil
    | cons c t =>
      rw [scanFrac]
      split
      · rename_i hpoint
        rw [hpoint.1]
        exact isAscii_cons.mpr ⟨by decide, isAscii_takeWhile⟩
      · exact isAscii_nil
  have hexp : ∀ s, IsAscii (scanExp s) := by
    intro s
    cases s with
    | nil => exact isAscii_nil
    | cons c t =>
      rw [scanExp]
      split
      · rename_i hletter
        have hletters : IsAscii (ofText "eE") := isAscii_of_all (by decide)
        exact isAscii_cons.mpr ⟨hletters c hletter.1,
          isAscii_append.mpr ⟨isAscii_scanSign (isAscii_of_all (by decide)), isAscii_takeWhile⟩⟩
      · exact isAscii_nil
  unfold scanNumber at h
  dsimp only at h
  split at h
  · cases h
  · cases h
    unfold Number.text
    rw [isAscii_append, isAscii_append, isAscii_append]
    exact ⟨⟨⟨isAscii_scanSign (isAscii_of_all (by decide)), hint _⟩, hfrac _⟩, hexp _⟩

theorem hexDigit_lt (n : Nat) : (hexDigit n).val < 0x80 := by
  have hall : ∀ d : Fin 16, (hexDigit d.val).val < 0x80 := by decide
  rw [hexDigit_mod]
  exact hall ⟨n % 16, Nat.mod_lt _ (by omega)⟩

theorem isAscii_escapeChar (c : CodePoint) : IsAscii (escapeChar c) := by
  have hunicode : ∀ c, IsAscii (unicodeEscape c) := by
    intro c
    unfold unicodeEscape
    rw [isAscii_cons, isAscii_cons, isAscii_cons, isAscii_cons, isAscii_cons, isAscii_cons]
    exact ⟨by decide, by decide, hexDigit_lt _, hexDigit_lt _, hexDigit_lt _, hexDigit_lt _, isAscii_nil⟩
  unfold escapeChar
  split
  · rename_i e hshort
    have hall : shortEscapes.all (fun x => decide (x.2.val < 0x80)) = true := by decide
    have hletter := of_decide_eq_true (List.all_eq_true.mp hall _ (mem_shortEscapes hshort))
    rw [isAscii_cons, isAscii_cons]
    exact ⟨by decide, hletter, isAscii_nil⟩
  · split
    · rename_i hprintable
      unfold isPrintable at hprintable
      rw [Bool.and_eq_true, decide_eq_true_eq, decide_eq_true_eq] at hprintable
      exact isAscii_cons.mpr ⟨by omega, isAscii_nil⟩
    · split
      · exact hunicode c
      · exact isAscii_append.mpr ⟨hunicode _, hunicode _⟩

theorem isAscii_dumpString (s : CodePoints) : IsAscii (dumpString s) := by
  have hescape : IsAscii (escape s) := by
    intro c hc
    obtain ⟨d, -, hd⟩ := List.mem_flatMap.mp hc
    exact isAscii_escapeChar d c hd
  unfold dumpString
  rw [isAscii_cons, isAscii_append]
  exact ⟨by decide, hescape, isAscii_of_all (by decide)⟩

theorem isAscii_text : IsAscii sp.text := by
  cases sp with
  | spaced => exact isAscii_of_all (by decide)
  | compact => exact isAscii_nil

theorem isAscii_dumpItems {items : List (Value F)} (h : ∀ v ∈ items, IsAscii (dump f sp v)) :
    IsAscii (dumpItems f sp items) := by
  induction items with
  | nil => exact isAscii_of_all rfl
  | cons v items ih =>
    rw [dumpItems, isAscii_cons, isAscii_append, isAscii_append]
    exact ⟨by decide, ⟨isAscii_text, h v List.mem_cons_self⟩, ih fun w hw => h w (List.mem_cons_of_mem _ hw)⟩

theorem isAscii_dumpFields {fields : List (CodePoints × Value F)}
    (h : ∀ x ∈ fields, IsAscii (dump f sp x.2)) : IsAscii (dumpFields f sp fields) := by
  induction fields with
  | nil => exact isAscii_of_all rfl
  | cons x fields ih =>
    rw [dumpFields, isAscii_cons, isAscii_append, isAscii_append, isAscii_cons, isAscii_append, isAscii_append]
    exact ⟨by decide, ⟨isAscii_text, isAscii_dumpString _⟩, by decide,
      ⟨isAscii_text, h x List.mem_cons_self⟩, ih fun y hy => h y (List.mem_cons_of_mem _ hy)⟩

/-- **What is written is ASCII.** -/
theorem isAscii_dump (v : Value F) : IsAscii (dump f sp v) := by
  induction v using Value.induct with
  | hnull => exact isAscii_of_all rfl
  | hbool b =>
    cases b with
    | true => exact isAscii_of_all rfl
    | false => exact isAscii_of_all rfl
  | hint n =>
    rw [dump]
    cases n with
    | ofNat n => exact isAscii_digits (natText_digits n)
    | negSucc n => exact isAscii_cons.mpr ⟨by decide, isAscii_digits (natText_digits (n + 1))⟩
  | hfloat x =>
    rw [dump]
    rcases f.written x with hconstant | ⟨n, hscan, htext, -⟩
    · have hall : constants.all (fun w => w.all fun c => decide (c.val < 0x80)) = true := by decide
      exact isAscii_of_all (List.all_eq_true.mp hall _ hconstant)
    · rw [← htext]
      exact isAscii_scanNumber hscan
  | hstr s => exact isAscii_dumpString s
  | harr items ih =>
    cases items with
    | nil => exact isAscii_of_all rfl
    | cons v items =>
      rw [dump, isAscii_cons, isAscii_append]
      exact ⟨by decide, ih v List.mem_cons_self,
        isAscii_dumpItems fun w hw => ih w (List.mem_cons_of_mem _ hw)⟩
  | hobj fields ih =>
    cases fields with
    | nil => exact isAscii_of_all rfl
    | cons x fields =>
      rw [dump, isAscii_cons, isAscii_append, isAscii_cons, isAscii_append, isAscii_append]
      exact ⟨by decide, isAscii_dumpString _, by decide, ⟨isAscii_text, ih x List.mem_cons_self⟩,
        isAscii_dumpFields fun y hy => ih y (List.mem_cons_of_mem _ hy)⟩

end Ascii

end JsonText
