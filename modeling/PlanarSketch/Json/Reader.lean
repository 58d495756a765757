import PlanarSketch.Json.Number
import PlanarSketch.Json.Value

/-!
Strict JSON text. Text is first read into a draft, which is complete in its grammar but may still
hold a number beyond every double, half of a surrogate pair, or nesting without bound; `value?`
turns a draft without these into a value. A part of a draft that nobody asks for may hold them.
-/

namespace PlanarSketch.Json

inductive Draft where
  | null
  | bool (b : Bool)
  | number (l : Literal)
  | str (s : Option String)
  | arr (xs : List Draft)
  | obj (members : List (Option String × Draft))

namespace Draft

def isBlank (c : Char) : Bool := c = ' ' || c = '\n' || c = '\t' || c = '\r'

def skipBlanks (cs : List Char) : List Char := cs.dropWhile isBlank

def digitValues (cs : List Char) : List Nat := cs.map fun c => c.toNat - '0'.toNat

/-- A run of digits, which may be empty, and the rest. -/
def spanDigits (cs : List Char) : List Nat × List Char :=
  (digitValues (cs.takeWhile Char.isDigit), cs.dropWhile Char.isDigit)

def digits? (cs : List Char) : Option (List Nat × List Char) :=
  match spanDigits cs with
  | ([], _) => none
  | found => some found

/-- Digits without a leading zero, unless zero is all there is. -/
def whole? (cs : List Char) : Option (List Nat × List Char) :=
  match digits? cs with
  | some (0 :: _ :: _, _) => none
  | found => found

def fraction? : List Char → Option (Option (List Nat) × List Char)
  | '.' :: cs => (digits? cs).map fun (ds, rest) => (some ds, rest)
  | cs => some (none, cs)

def isExponentMark (c : Char) : Bool := c = 'e' || c = 'E'

def exponentDigits? : List Char → Option ((Bool × List Nat) × List Char)
  | '+' :: cs => (digits? cs).map fun (ds, rest) => ((false, ds), rest)
  | '-' :: cs => (digits? cs).map fun (ds, rest) => ((true, ds), rest)
  | cs => (digits? cs).map fun (ds, rest) => ((false, ds), rest)

def exponent? : List Char → Option (Option (Bool × List Nat) × List Char)
  | c :: cs =>
      if isExponentMark c then (exponentDigits? cs).map fun (e, rest) => (some e, rest)
      else some (none, c :: cs)
  | [] => some (none, [])

def unsigned? (negative : Bool) (cs : List Char) : Option (Literal × List Char) := do
  let (whole, cs) ← whole? cs
  let (fraction, cs) ← fraction? cs
  let (exponent, cs) ← exponent? cs
  return (⟨negative, whole, fraction, exponent⟩, cs)

def literal? : List Char → Option (Literal × List Char)
  | '-' :: cs => unsigned? true cs
  | cs => unsigned? false cs

def hexValue? (c : Char) : Option Nat :=
  if c.isDigit then some (c.toNat - '0'.toNat)
  else if 'a' ≤ c ∧ c ≤ 'f' then some (c.toNat - 'a'.toNat + 10)
  else if 'A' ≤ c ∧ c ≤ 'F' then some (c.toNat - 'A'.toNat + 10)
  else none

/-- A character, or one half of a character beyond the basic plane. -/
inductive Unit16 where
  | char (c : Char)
  | half (n : Nat)

def unit (n : Nat) : Unit16 :=
  if 0xD800 ≤ n ∧ n ≤ 0xDFFF then .half n else .char (Char.ofNat n)

/-- The units of a string up to its closing quote. -/
def units? : List Char → Option (List Unit16 × List Char)
  | [] => none
  | '"' :: cs => some ([], cs)
  | '\\' :: 'u' :: a :: b :: c :: d :: cs => do
      let n := (← hexValue? a) * 4096 + (← hexValue? b) * 256 + (← hexValue? c) * 16 +
        (← hexValue? d)
      let (us, rest) ← units? cs
      return (unit n :: us, rest)
  | '\\' :: c :: cs => do
      let found ← ([('"', '"'), ('\\', '\\'), ('/', '/'), ('b', '\x08'), ('f', '\x0c'),
        ('n', '\n'), ('r', '\r'), ('t', '\t')] : List (Char × Char)).lookup c
      let (us, rest) ← units? cs
      return (.char found :: us, rest)
  | c :: cs =>
      if c.toNat < 32 ∨ c = '\\' then none
      else do
        let (us, rest) ← units? cs
        return (.char c :: us, rest)

/-- Joins the halves of characters; a half without its partner has no meaning. -/
def join? : List Unit16 → Option (List Char)
  | [] => some []
  | .char c :: us => (join? us).map (c :: ·)
  | .half a :: .half b :: us =>
      if a < 0xDC00 ∧ 0xDC00 ≤ b then
        (join? us).map (Char.ofNat (0x10000 + (a - 0xD800) * 1024 + (b - 0xDC00)) :: ·)
      else none
  | .half _ :: _ => none

/-- A string whose opening quote has been read. -/
def string? (cs : List Char) : Option (Option String × List Char) :=
  (units? cs).map fun (us, rest) => ((join? us).map String.ofList, rest)

def keyword? (word : String) (d : Draft) (cs : List Char) : Option (Draft × List Char) :=
  if word.toList.isPrefixOf cs then some (d, cs.drop word.length) else none

mutual

def value : Nat → List Char → Option (Draft × List Char)
  | 0, _ => none
  | fuel + 1, cs =>
      match skipBlanks cs with
      | '"' :: cs => (string? cs).map fun (s, rest) => (.str s, rest)
      | '[' :: cs =>
          match skipBlanks cs with
          | ']' :: cs => some (.arr [], cs)
          | cs => (elements fuel cs).map fun (xs, rest) => (.arr xs, rest)
      | '\x7b' :: cs =>
          match skipBlanks cs with
          | '\x7d' :: cs => some (.obj [], cs)
          | cs => (members fuel cs).map fun (ms, rest) => (.obj ms, rest)
      | 'n' :: cs => keyword? "ull" .null cs
      | 't' :: cs => keyword? "rue" (.bool true) cs
      | 'f' :: cs => keyword? "alse" (.bool false) cs
      | cs => (literal? cs).map fun (l, rest) => (.number l, rest)

def elements : Nat → List Char → Option (List Draft × List Char)
  | 0, _ => none
  | fuel + 1, cs => do
      let (x, cs) ← value fuel cs
      match skipBlanks cs with
      | ',' :: cs => do
          let (xs, rest) ← elements fuel cs
          return (x :: xs, rest)
      | ']' :: cs => return ([x], cs)
      | _ => none

def members : Nat → List Char → Option (List (Option String × Draft) × List Char)
  | 0, _ => none
  | fuel + 1, cs =>
      match skipBlanks cs with
      | '"' :: cs => do
          let (name, cs) ← string? cs
          match skipBlanks cs with
          | ':' :: cs => do
              let (x, cs) ← value fuel cs
              match skipBlanks cs with
              | ',' :: cs => do
                  let (ms, rest) ← members fuel cs
                  return ((name, x) :: ms, rest)
              | '\x7d' :: cs => return ([(name, x)], cs)
              | _ => none
          | _ => none
      | _ => none

end

/-- The draft of a text that holds one value and blanks. Every two steps of the reader consume a
character, which bounds their number. -/
def ofText? (text : String) : Option Draft :=
  match value (2 * text.length + 2) text.toList with
  | some (d, rest) => if (skipBlanks rest).isEmpty then some d else none
  | none => none

mutual

/-- The value of a draft in which containers nest at most as deep as the first argument. -/
def value? : Nat → Draft → Option (Json Float)
  | _, null => some .null
  | _, bool b => some (.bool b)
  | _, number l =>
      match l.toInt? with
      | some n => some (.int n)
      | none => l.toFloat?.map .real
  | _, str s => s.map .str
  | 0, arr _ => none
  | depth + 1, arr xs => (elementValues? depth xs).map .arr
  | 0, obj _ => none
  | depth + 1, obj ms => (memberValues? depth ms).map .obj

def elementValues? : Nat → List Draft → Option (List (Json Float))
  | _, [] => some []
  | depth, x :: xs => do return (← x.value? depth) :: (← elementValues? depth xs)

def memberValues? : Nat → List (Option String × Draft) → Option (List (String × Json Float))
  | _, [] => some []
  | depth, (name, x) :: ms => do
      return (← name, ← x.value? depth) :: (← memberValues? depth ms)

end

/-- Keeps the members of an object with the given names and forgets what the others hold. -/
def keep (names : List String) : Draft → Draft
  | obj ms => obj <| ms.map fun (name, x) =>
      if names.any fun n => name = some n then (name, x) else (name, .null)
  | d => d

end Draft

/-- Containers may nest this deep. -/
def depthLimit : Nat := 127

def ofText? (text : String) : Option (Json Float) :=
  (Draft.ofText? text).bind fun d => d.value? depthLimit

end PlanarSketch.Json
