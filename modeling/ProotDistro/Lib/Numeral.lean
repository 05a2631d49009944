import ProotDistro.Lib.Text

/-!
# Lines and numbers as Python reads them

`splitlines` ends a line at every line boundary of Unicode. A number is read by `int`: a sign and decimal digits of any script, with single underscores between them and
white space around. What `isdigit` calls a digit is more than what `int` reads.
-/

namespace Text

/-! ## Lines -/

/-- The characters a line ends at. -/
def isLineEnd (c : Char) : Bool :=
  c ∈ ['\n', '\r', '\x0b', '\x0c', '\x1c', '\x1d', '\x1e', '\u0085', '\u2028', '\u2029']

/-- The lines of a text, the first of which has begun with `line`. -/
def splitlinesFrom (line : List Char) : List Char → List (List Char)
  | [] => if line = [] then [] else [line]
  | '\r' :: '\n' :: s => line :: splitlinesFrom [] s
  | c :: s => if isLineEnd c then line :: splitlinesFrom [] s else splitlinesFrom (line ++ [c]) s

/-- `s.splitlines()` -/
def splitlines (s : List Char) : List (List Char) := splitlinesFrom [] s

/-! ## Numbers -/

/-- The zeros of the scripts that have decimal digits; the other nine follow each. -/
def decimalZeros : List Nat :=
  [0x30, 0x660, 0x6f0, 0x7c0, 0x966, 0x9e6, 0xa66, 0xae6, 0xb66, 0xbe6, 0xc66, 0xce6, 0xd66, 0xde6,
   0xe50, 0xed0, 0xf20, 0x1040, 0x1090, 0x17e0, 0x1810, 0x1946, 0x19d0, 0x1a80, 0x1a90, 0x1b50,
   0x1bb0, 0x1c40, 0x1c50, 0xa620, 0xa8d0, 0xa900, 0xa9d0, 0xa9f0, 0xaa50, 0xabf0, 0xff10, 0x104a0,
   0x10d30, 0x11066, 0x110f0, 0x11136, 0x111d0, 0x112f0, 0x11450, 0x114d0, 0x11650, 0x116c0,
   0x11730, 0x118e0, 0x11950, 0x11c50, 0x11d50, 0x11da0, 0x16a60, 0x16ac0, 0x16b50, 0x1d7ce,
   0x1d7d8, 0x1d7e2, 0x1d7ec, 0x1d7f6, 0x1e140, 0x1e2f0, 0x1e950, 0x1fbf0]

/-- The digits that are no decimal digits. -/
def otherDigits : List (Nat × Nat) :=
  [(0xb2, 0xb3), (0xb9, 0xb9), (0x1369, 0x1371), (0x19da, 0x19da), (0x2070, 0x2070),
   (0x2074, 0x2079), (0x2080, 0x2089), (0x2460, 0x2468), (0x2474, 0x247c), (0x2488, 0x2490),
   (0x24ea, 0x24ea), (0x24f5, 0x24fd), (0x24ff, 0x24ff), (0x2776, 0x277e), (0x2780, 0x2788),
   (0x278a, 0x2792), (0x10a40, 0x10a43), (0x10e60, 0x10e68), (0x11052, 0x1105a), (0x1f100, 0x1f10a)]

/-- `unicodedata.decimal` -/
def decimalValue (c : Char) : Option Nat :=
  (decimalZeros.find? fun first => first ≤ c.toNat && c.toNat < first + 10).map fun first =>
    c.toNat - first

/-- `str.isdigit` of one character. -/
def isDigit (c : Char) : Bool :=
  (decimalValue c).isSome || otherDigits.any fun r => r.1 ≤ c.toNat && c.toNat ≤ r.2

/-- `s.isdigit()` -/
def isDigits (s : List Char) : Bool := !s.isEmpty && s.all isDigit

/-- The decimal digits of a number, with single underscores between them. -/
def readDigits : List Char → Option (List Nat)
  | [] => none
  | [c] => (decimalValue c).map ([·])
  | c :: '_' :: s => (decimalValue c).bind fun d => (readDigits s).map (d :: ·)
  | c :: s => (decimalValue c).bind fun d => (readDigits s).map (d :: ·)

/-- The most digits `int` reads. -/
def maxStrDigits : Nat := 4300

/-- The number behind a sign. -/
def readUnsigned (s : List Char) : Option Nat :=
  (readDigits s).bind fun digits =>
    if digits.length ≤ maxStrDigits then some (digits.foldl (fun n d => 10 * n + d) 0) else none

/-- What `int` drops at the ends: white space without the four separators of ASCII. -/
def isIntSpace (c : Char) : Bool := isSpace c && !('\x1c' ≤ c && c ≤ '\x1f')

/-- `int(s)`; `none` where it raises. -/
def readInt (s : List Char) : Option Int :=
  match (s.dropWhile isIntSpace).rdropWhile isIntSpace with
  | '-' :: digits => (readUnsigned digits).map fun n => -(n : Int)
  | '+' :: digits => (readUnsigned digits).map fun n => (n : Int)
  | digits => (readUnsigned digits).map fun n => (n : Int)

example : readInt " -1_000 ".toList = some (-1000) := by decide +kernel

example : isDigits "²".toList = true ∧ readInt "²".toList = none := by decide +kernel

end Text
