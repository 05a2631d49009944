import ProotDistro.Lib.Dict
import ProotDistro.Lib.Text

/-!
# JSON values

What a reader of JSON answers: objects are dictionaries with string keys, in the order the keys
came in. The readers of single fields answer `none` for a value that is missing as well as for
one of another kind.
-/

inductive Json where
  | null
  | bool (b : Bool)
  | int (n : Int)
  /-- any other number, as it was written -/
  | float (digits : List Char)
  | str (s : List Char)
  | arr (items : List Json)
  | obj (fields : List (List Char × Json))

namespace Json

mutual

/-- The same value, written alike. -/
def beq : Json → Json → Bool
  | .null, .null => true
  | .bool a, .bool b => a == b
  | .int a, .int b => a == b
  | .float a, .float b => a == b
  | .str a, .str b => a == b
  | .arr a, .arr b => beqItems a b
  | .obj a, .obj b => beqFields a b
  | _, _ => false

def beqItems : List Json → List Json → Bool
  | [], [] => true
  | a :: as, b :: bs => beq a b && beqItems as bs
  | _, _ => false

def beqFields : List (List Char × Json) → List (List Char × Json) → Bool
  | [], [] => true
  | (k, a) :: as, (l, b) :: bs => k == l && beq a b && beqFields as bs
  | _, _ => false

end

mutual

/-- Values the test takes for equal are. -/
theorem eq_of_beq : ∀ {a b : Json}, beq a b = true → a = b
  | .null, b, h => by cases b <;> first | rfl | cases h
  | .bool a, b, h => by cases b <;> first | exact congrArg _ (LawfulBEq.eq_of_beq h) | cases h
  | .int a, b, h => by cases b <;> first | exact congrArg _ (LawfulBEq.eq_of_beq h) | cases h
  | .float a, b, h => by cases b <;> first | exact congrArg _ (LawfulBEq.eq_of_beq h) | cases h
  | .str a, b, h => by cases b <;> first | exact congrArg _ (LawfulBEq.eq_of_beq h) | cases h
  | .arr a, b, h => by cases b <;> first | exact congrArg _ (eq_of_beqItems h) | cases h
  | .obj a, b, h => by cases b <;> first | exact congrArg _ (eq_of_beqFields h) | cases h

theorem eq_of_beqItems : ∀ {a b : List Json}, beqItems a b = true → a = b
  | [], b, h => by cases b <;> first | rfl | cases h
  | a :: as, b, h => by
    cases b with
    | nil => cases h
    | cons b bs =>
      have h := Bool.and_eq_true_iff.mp h
      rw [eq_of_beq h.1, eq_of_beqItems h.2]

theorem eq_of_beqFields : ∀ {a b : List (List Char × Json)}, beqFields a b = true → a = b
  | [], b, h => by cases b <;> first | rfl | cases h
  | (k, a) :: as, b, h => by
    cases b with
    | nil => cases h
    | cons b bs =>
      have h := Bool.and_eq_true_iff.mp h
      have hhead := Bool.and_eq_true_iff.mp h.1
      rw [LawfulBEq.eq_of_beq hhead.1, eq_of_beq hhead.2, eq_of_beqFields h.2]

end

mutual

/-- A value is equal to itself by the test. -/
theorem beq_self : ∀ j : Json, beq j j = true
  | .null => rfl
  | .bool b => beq_self_eq_true b
  | .int n => beq_self_eq_true n
  | .float digits => beq_self_eq_true digits
  | .str s => beq_self_eq_true s
  | .arr items => beqItems_self items
  | .obj fields => beqFields_self fields

theorem beqItems_self : ∀ items : List Json, beqItems items items = true
  | [] => rfl
  | j :: items => by
    show (beq j j && beqItems items items) = true
    rw [beq_self j, beqItems_self items]
    rfl

theorem beqFields_self : ∀ fields : List (List Char × Json), beqFields fields fields = true
  | [] => rfl
  | (k, j) :: fields => by
    show (k == k && beq j j && beqFields fields fields) = true
    rw [beq_self_eq_true, beq_self j, beqFields_self fields]
    rfl

end

instance : DecidableEq Json := fun a b =>
  decidable_of_iff (beq a b = true) ⟨eq_of_beq, fun h => h ▸ beq_self a⟩

/-- `bool(j)` -/
def truthy : Json → Bool
  | .null => false
  | .bool b => b
  | .int n => n ≠ 0
  | .float digits => digits.any fun c => c ∈ ['1', '2', '3', '4', '5', '6', '7', '8', '9', 'I', 'N']
  | .str s => s ≠ []
  | .arr items => !items.isEmpty
  | .obj fields => !fields.isEmpty

def asObj? : Json → Option (Dict (List Char) Json)
  | .obj fields => some fields
  | _ => none

def asArr? : Json → Option (List Json)
  | .arr items => some items
  | _ => none

def asStr? : Json → Option (List Char)
  | .str s => some s
  | _ => none

def isNull : Json → Bool
  | .null => true
  | _ => false

/-- `j.get(key)` of an object, `none` where the answer would be `None` or not an object's. -/
def field (j : Json) (key : List Char) : Option Json :=
  match j.asObj? with
  | none => none
  | some fields => (Dict.get fields key).filter fun v => !v.isNull

/-- A field that is null counts as missing. -/
theorem field_obj (fields : Dict (List Char) Json) (key : List Char) :
    (Json.obj fields).field key = (Dict.get fields key).filter fun v => !v.isNull := rfl

/-! ## Writing

`json.dumps` with the escapes of its ASCII mode: a character beyond the basic plane is written
as two surrogates. -/

def hexDigit (n : Nat) : Char := "0123456789abcdef".toList.getD (n % 16) '0'

def hex4 (n : Nat) : List Char :=
  [hexDigit (n / 4096), hexDigit (n / 256), hexDigit (n / 16), hexDigit n]

def escapeChar (c : Char) : List Char :=
  if c = '"' then ['\\', '"']
  else if c = '\\' then ['\\', '\\']
  else if c = '\n' then ['\\', 'n']
  else if c = '\r' then ['\\', 'r']
  else if c = '\t' then ['\\', 't']
  else if c = '\x08' then ['\\', 'b']
  else if c = '\x0c' then ['\\', 'f']
  else if ' ' ≤ c ∧ c ≤ '~' then [c]
  else if c.toNat < 0x10000 then '\\' :: 'u' :: hex4 c.toNat
  else
    '\\' :: 'u' :: hex4 (0xd800 + (c.toNat - 0x10000) / 1024) ++
      '\\' :: 'u' :: hex4 (0xdc00 + (c.toNat - 0x10000) % 1024)

def dumpsStr (s : List Char) : List Char := '"' :: s.flatMap escapeChar ++ ['"']

/-- A list of strings, without spaces. -/
def dumpsStrList (l : List (List Char)) : List Char :=
  '[' :: [','].intercalate (l.map dumpsStr) ++ [']']

def keyLe (x y : List Char × Json) : Bool := decide (x.1 ≤ y.1)

mutual

/-- The same value with the keys of every object in order. -/
def sortKeys : Json → Json
  | .null => .null
  | .bool b => .bool b
  | .int n => .int n
  | .float digits => .float digits
  | .str s => .str s
  | .arr items => .arr (sortItems items)
  | .obj fields => .obj ((sortFields fields).mergeSort keyLe)

def sortItems : List Json → List Json
  | [] => []
  | j :: items => sortKeys j :: sortItems items

def sortFields : List (List Char × Json) → List (List Char × Json)
  | [] => []
  | (k, j) :: fields => (k, sortKeys j) :: sortFields fields

end

mutual

/-- `json.dumps(j, separators=(",", ":"))` -/
def dumps : Json → List Char
  | .null => "null".toList
  | .bool true => "true".toList
  | .bool false => "false".toList
  | .int n => (toString n).toList
  | .float digits => digits
  | .str s => dumpsStr s
  | .arr items => '[' :: [','].intercalate (dumpsItems items) ++ [']']
  | .obj fields => '\x7b' :: [','].intercalate (dumpsFields fields) ++ ['\x7d']

def dumpsItems : List Json → List (List Char)
  | [] => []
  | j :: items => dumps j :: dumpsItems items

def dumpsFields : List (List Char × Json) → List (List Char)
  | [] => []
  | (k, j) :: fields => (dumpsStr k ++ ':' :: dumps j) :: dumpsFields fields

end

/-- `canonical_json`: sorted keys and no blanks, as bytes. -/
def canonicalJson (j : Json) : List UInt8 := (dumps (sortKeys j)).map fun c => c.toNat.toUInt8

/-! ## Reading -/

/-- All strings, or nothing. -/
def strList? (items : List Json) : Option (List (List Char)) := items.mapM asStr?

end Json
