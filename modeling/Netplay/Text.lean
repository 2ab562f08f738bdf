import Mathlib.Data.List.Basic

/-!
# Byte strings, character classes and failures

A `std::string` is a list of bytes. The character classes are those of the C
locale. A failing call either throws `parse_exception` with a message, or does
something C++ leaves undefined; `fuel` marks a loop whose bound was too small
and is shown never to be reached.
-/

namespace Netplay.Text

abbrev Bytes := List UInt8

/-- The byte of an ASCII character. -/
def ch (c : Char) : UInt8 := UInt8.ofNat c.toNat

/-- The bytes of an ASCII string literal. -/
def lit (s : String) : Bytes := s.toList.map ch

inductive Fault where
  | parse_exception : Bytes → Fault
  | undefined : Fault
  | fuel : Fault
  deriving DecidableEq, Repr

/-- `throw parse_exception(msg)`. -/
def throwParse (msg : Bytes) : Except Fault α := .error (.parse_exception msg)

@[simp] theorem throwParse_ne_ok (msg : Bytes) (a : α) : throwParse msg ≠ .ok a := by
  simp [throwParse]

/-- `iswspace` on a byte: space, tab, newline, vertical tab, form feed, return. -/
def iswspace (c : UInt8) : Bool := c == ch ' ' || (9 ≤ c && c ≤ 13)

def isdigit (c : UInt8) : Bool := ch '0' ≤ c && c ≤ ch '9'

def isalnum (c : UInt8) : Bool :=
  isdigit c || (ch 'a' ≤ c && c ≤ ch 'z') || (ch 'A' ≤ c && c ≤ ch 'Z')

/-- `std::to_string` of an unsigned number. -/
def toDigits (n : Nat) : Bytes := (Nat.toDigits 10 n).map ch

/-- A successful bind comes from two successful calls. -/
theorem bind_eq_ok {x : Except Fault α} {f : α → Except Fault β} {b : β} :
    (x >>= f) = .ok b ↔ ∃ a, x = .ok a ∧ f a = .ok b := by
  cases x <;> simp [bind, Except.bind]

/-- A failing bind fails in the first call or in the second. -/
theorem bind_eq_error {x : Except Fault α} {f : α → Except Fault β} {e : Fault} :
    (x >>= f) = .error e ↔ x = .error e ∨ ∃ a, x = .ok a ∧ f a = .error e := by
  cases x <;> simp [bind, Except.bind]

/-- The only failure is a `parse_exception`. -/
def OnlyThrows (x : Except Fault α) : Prop := ∀ f, x = .error f → ∃ msg, f = .parse_exception msg

theorem onlyThrows_ok (a : α) : OnlyThrows (.ok a) := by intro f h; cases h

theorem onlyThrows_throw (msg : Bytes) : OnlyThrows (throwParse msg : Except Fault α) := by
  intro f h
  cases h
  exact ⟨msg, rfl⟩

theorem onlyThrows_bind {x : Except Fault α} {f : α → Except Fault β} (hx : OnlyThrows x)
    (hf : ∀ a, x = .ok a → OnlyThrows (f a)) : OnlyThrows (x >>= f) := by
  intro e h
  rcases bind_eq_error.mp h with h | ⟨a, ha, h⟩
  · exact hx e h
  · exact hf a ha e h

end Netplay.Text
