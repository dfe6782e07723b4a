import Atp.Text

/-!
Prefix codes: every value is written so that it can be read back from the front
of a longer string.  Numbers end with a semicolon, strings come after their
length, and the fields of a message follow each other.
-/

namespace Atp

structure Wire (α : Type) where
  put : α → Text
  get : Text → Option (α × Text)
  get_put : ∀ x rest, get (put x ++ rest) = some (x, rest)

namespace Wire

variable {α β : Type}

def nat : Wire Nat where
  put n := decimal n ++ [';']
  get s := some (Nat.ofDigitChars 10 (s.takeWhile Char.isDigit) 0,
    (s.dropWhile Char.isDigit).drop 1)
  get_put n rest := by
    rw [List.append_assoc, List.singleton_append, Text.takeWhile_decimal n (by decide),
      Text.dropWhile_decimal n (by decide), decimal, Nat.ofDigitChars_ten_toDigits]
    rfl

def text : Wire Text where
  put s := nat.put s.length ++ s
  get s := do
    let (n, s) ← nat.get s
    some (s.take n, s.drop n)
  get_put s rest := by
    rw [List.append_assoc, nat.get_put]
    simp

def pair (A : Wire α) (B : Wire β) : Wire (α × β) where
  put x := A.put x.1 ++ B.put x.2
  get s := do
    let (a, s) ← A.get s
    let (b, s) ← B.get s
    some ((a, b), s)
  get_put x rest := by
    simp [List.append_assoc, A.get_put, B.get_put]

def optional (A : Wire α) : Wire (Option α) where
  put
    | none => ['0']
    | some x => '1' :: A.put x
  get
    | '0' :: s => some (none, s)
    | '1' :: s => (A.get s).map fun r => (some r.1, r.2)
    | _ => none
  get_put x rest := by
    cases x with
    | none => rfl
    | some x => simp [A.get_put]

def iso (A : Wire α) (build : α → β) (fields : β → α)
    (build_fields : ∀ x, build (fields x) = x) : Wire β where
  put x := A.put (fields x)
  get s := (A.get s).map fun r => (build r.1, r.2)
  get_put x rest := by
    rw [A.get_put, Option.map_some, build_fields]

def parse (A : Wire α) (s : Text) : Option α :=
  (A.get s).bind fun r => if r.2 = [] then some r.1 else none

theorem parse_put (A : Wire α) (x : α) : A.parse (A.put x) = some x := by
  have hget := A.get_put x []
  rw [List.append_nil] at hget
  simp [parse, hget]

end Wire

end Atp
