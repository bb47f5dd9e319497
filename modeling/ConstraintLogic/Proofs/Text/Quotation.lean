import ConstraintLogic.Text.Quoted
import Mathlib.Algebra.Group.Nat.Defs
import Mathlib.Tactic.Common

/-!
# Quoted strings are read back

A character is written as itself, as a backslash and a letter, or as a backslash and its
number between braces. A bare backslash is never written, so that what is written can be
undone one character at a time; neither is a bare quote, so that the first one met between
characters ends the string. Which characters count as unprintable does not matter.

Results:
* `hexOnto_eq`: what the digits of a number are, and where they end.
* `unescape_escaped`: undoing one written character, whatever follows it.
* `quoted_append`: a quoted string tells its content, and where it ends.
-/

namespace ConstraintLogic.Text

/-! ## Numbers in hexadecimal -/

/-- The value of a hexadecimal digit. -/
def digitValue (c : Char) : Nat :=
  if c.toNat < 'a'.toNat then c.toNat - '0'.toNat else c.toNat - 'a'.toNat + 10

/-- The number that hexadecimal digits stand for. -/
def hexValue (digits : List Char) : Nat := digits.foldl (fun n c => 16 * n + digitValue c) 0

theorem digitValue_hexDigit : ∀ n < 16, digitValue (hexDigit n) = n := by decide

theorem hexDigit_ne_brace : ∀ n < 16, hexDigit n ≠ '\x7d' := by decide

/-- Given room for them, digits are written that stand for the number, and no brace is among them. -/
theorem hexOnto_eq {places n : Nat} (room : n < 16 ^ places) (rest : List Char) :
    ∃ digits, hexOnto places n rest = digits ++ rest ∧ hexValue digits = n ∧ '\x7d' ∉ digits := by
  induction places generalizing n rest with
  | zero =>
    obtain rfl : n = 0 := by omega
    exact ⟨[], rfl, rfl, by simp⟩
  | succ places ih =>
    rw [hexOnto]
    split
    · next small =>
      refine ⟨[hexDigit n], rfl, ?_, ?_⟩
      · simp [hexValue, digitValue_hexDigit n small]
      · simpa using (hexDigit_ne_brace n small).symm
    · have last : n % 16 < 16 := Nat.mod_lt _ (by omega)
      obtain ⟨digits, written, value, free⟩ := ih (n := n / 16) (by omega) (hexDigit (n % 16) :: rest)
      refine ⟨digits ++ [hexDigit (n % 16)], by simp [written], ?_, ?_⟩
      · calc hexValue (digits ++ [hexDigit (n % 16)])
            = 16 * hexValue digits + digitValue (hexDigit (n % 16)) := by simp [hexValue]
          _ = 16 * (n / 16) + n % 16 := by rw [value, digitValue_hexDigit _ last]
          _ = n := by omega
      · simp [free, (hexDigit_ne_brace _ last).symm]

/-! ## Undoing escapes -/

/-- The character that a letter behind a backslash stands for. -/
def meaning : Char → Char
  | 'n' => '\n'
  | 't' => '\t'
  | 'r' => '\r'
  | '0' => '\x00'
  | letter => letter

/-- The first character that a text writes, and what is left of the text. -/
def unescape : List Char → Option (Char × List Char)
  | '\\' :: 'u' :: '\x7b' :: rest =>
    some (Char.ofNat (hexValue (rest.takeWhile (· ≠ '\x7d'))), (rest.dropWhile (· ≠ '\x7d')).tail)
  | '\\' :: letter :: rest => some (meaning letter, rest)
  | c :: rest => some (c, rest)
  | [] => none

theorem unescape_plain {c : Char} (plain : c ≠ '\\') (rest : List Char) :
    unescape (c :: rest) = some (c, rest) := by
  unfold unescape
  split <;> simp_all

theorem unescape_number (c : Char) (rest : List Char) :
    unescape ('\\' :: 'u' :: '\x7b' :: hexOnto 6 c.toNat ['\x7d'] ++ rest) = some (c, rest) := by
  have room : c.toNat < 16 ^ 6 := by
    have valid : c.toNat < 0xd800 ∨ 0xdfff < c.toNat ∧ c.toNat < 0x110000 := c.valid
    omega
  obtain ⟨digits, written, value, free⟩ := hexOnto_eq room ['\x7d']
  have inside : ∀ d ∈ digits, decide (d ≠ '\x7d') = true := fun d mem =>
    decide_eq_true fun brace => free (brace ▸ mem)
  have text : hexOnto 6 c.toNat ['\x7d'] ++ rest = digits ++ '\x7d' :: rest := by simp [written]
  rw [List.cons_append, List.cons_append, List.cons_append, text, unescape,
    List.takeWhile_append_of_pos inside, List.dropWhile_append_of_pos inside]
  simp [value]

/-- Whatever follows, the written form of a character is undone. -/
theorem unescape_escaped (c : Char) (rest : List Char) : unescape (escaped c ++ rest) = some (c, rest) := by
  unfold escaped
  split_ifs with quote backslash newline tab carriage zero unprintable
  · rw [quote]; rfl
  · rw [backslash]; rfl
  · rw [newline]; rfl
  · rw [tab]; rfl
  · rw [carriage]; rfl
  · rw [show c = '\x00' from Char.toNat_inj.mp zero]; rfl
  · exact unescape_number c rest
  · exact unescape_plain backslash rest

theorem escaped_append {c d : Char} {rest rest' : List Char} (equal : escaped c ++ rest = escaped d ++ rest') :
    c = d ∧ rest = rest' := by
  have undone : some (c, rest) = some (d, rest') := by
    rw [← unescape_escaped, ← unescape_escaped, equal]
  simpa using undone

/-- No character is written with a quote in front, the quote itself included. -/
theorem escaped_ne_quote (c : Char) (rest rest' : List Char) : escaped c ++ rest ≠ '"' :: rest' := by
  intro equal
  have undone : some (c, rest) = some ('"', rest') := by
    rw [← unescape_escaped, equal, unescape_plain (by decide)]
  obtain ⟨rfl, -⟩ := Prod.mk.inj (Option.some.inj undone)
  simp [escaped] at equal

/-! ## Strings -/

/-- The bare quote behind a content tells where the content ends. -/
theorem content_append {s s' rest rest' : List Char}
    (equal : s.flatMap escaped ++ '"' :: rest = s'.flatMap escaped ++ '"' :: rest') : s = s' ∧ rest = rest' := by
  induction s generalizing s' with
  | nil =>
    cases s' with
    | nil => simpa using equal
    | cons d s' =>
      rw [List.flatMap_cons, List.append_assoc] at equal
      exact absurd equal.symm (escaped_ne_quote d _ _)
  | cons c s ih =>
    cases s' with
    | nil =>
      rw [List.flatMap_cons, List.append_assoc] at equal
      exact absurd equal (escaped_ne_quote c _ _)
    | cons d s' =>
      rw [List.flatMap_cons, List.flatMap_cons, List.append_assoc, List.append_assoc] at equal
      obtain ⟨rfl, remain⟩ := escaped_append equal
      obtain ⟨rfl, rests⟩ := ih remain
      exact ⟨rfl, rests⟩

/-- A quoted string tells its content and where it ends, whatever stands in it or behind it. -/
theorem quoted_append {s s' : String} {rest rest' : List Char}
    (equal : (quoted s).toList ++ rest = (quoted s').toList ++ rest') : s = s' ∧ rest = rest' := by
  have contents : s.toList.flatMap escaped ++ '"' :: rest = s'.toList.flatMap escaped ++ '"' :: rest' := by
    simpa [quoted] using equal
  obtain ⟨same, rests⟩ := content_append contents
  exact ⟨String.toList_inj.mp same, rests⟩

end ConstraintLogic.Text
