import Formula.Text.Quoted
import Formula.Proofs.Munch
import Mathlib.Tactic.IntervalCases
import Mathlib.Tactic.Common

/-! Quoted text can be read back: one character is read off its escape, whatever stands behind it,
and no escape begins with a quote. So the text between the quotes tells the characters, and where
it ends. -/
namespace Formula.Text

def hexValue (c : Char) : Nat := if c.toNat < 58 then c.toNat - 48 else c.toNat - 87

/-- The number that digits spell in base sixteen. -/
def ofHex (cs : List Char) : Nat := cs.foldl (fun n c => 16 * n + hexValue c) 0

theorem hexValue_digitChar {n : Nat} (h : n < 16) : hexValue n.digitChar = n := by
  interval_cases n <;> rfl

theorem ofHex_toDigits (n : Nat) : ofHex (Nat.toDigits 16 n) = n := by
  induction n using Nat.strong_induction_on with
  | h n ih =>
    rw [Nat.toDigits_eq_if (by decide)]
    split
    · rename_i h
      simp [ofHex, hexValue_digitChar h]
    · have hdiv := ih (n / 16) (by omega)
      have hmod := hexValue_digitChar (Nat.mod_lt n (by decide : 0 < 16))
      rw [ofHex] at hdiv
      simp only [ofHex, List.foldl_append, hdiv, List.foldl_cons, List.foldl_nil, hmod]
      omega

theorem brace_not_mem_toDigits (n : Nat) : '\x7d' ∉ Nat.toDigits 16 n := by
  induction n using Nat.strong_induction_on with
  | h n ih =>
    rw [Nat.toDigits_eq_if (by decide)]
    split
    · simp
    · simp [ih (n / 16) (by omega)]

/-- What the character behind a backslash stands for. -/
def unnamed (c : Char) : Char :=
  if c = '0' then '\x00' else if c = 't' then '\t' else if c = 'r' then '\r'
  else if c = 'n' then '\n' else c

/-- Reads one character off a text between quotes. -/
def unescape : List Char → Option (Char × List Char)
  | '\\' :: 'u' :: cs =>
    some (Char.ofNat (ofHex ((cs.drop 1).takeWhile (· != '\x7d'))),
      (cs.drop 1).dropWhile (· != '\x7d') |>.drop 1)
  | '\\' :: c :: cs => some (unnamed c, cs)
  | c :: cs => some (c, cs)
  | [] => none

theorem unescape_cons {c : Char} (h : c ≠ '\\') (rest : List Char) :
    unescape (c :: rest) = some (c, rest) := by
  unfold unescape
  split
  · rename_i heq
    exact absurd (List.cons.inj heq).1 h
  · rename_i heq
    exact absurd (List.cons.inj heq).1 h
  · rename_i heq
    cases heq
    rfl
  · rename_i heq
    cases heq

theorem unescape_numberEscape (c : Char) (rest : List Char) :
    unescape (numberEscape c ++ rest) = some (c, rest) := by
  obtain ⟨htake, hdrop⟩ := takeWhile_ne_append (brace_not_mem_toDigits c.toNat) rest
  simp [numberEscape, unescape, htake, hdrop, ofHex_toDigits]

theorem unescape_escape (c : Char) (rest : List Char) :
    unescape (escape c ++ rest) = some (c, rest) := by
  unfold escape
  split
  · subst c; rfl
  split
  · subst c; rfl
  split
  · subst c; rfl
  split
  · subst c; rfl
  split
  · subst c; rfl
  split
  · subst c; rfl
  split
  · exact unescape_numberEscape c rest
  · exact unescape_cons ‹_› rest

variable {c d : Char} {cs ds rest rest' : List Char}

/-- An escape tells its character and where it ends. -/
theorem escape_append_injective (h : escape c ++ rest = escape d ++ rest') :
    c = d ∧ rest = rest' := by
  have hread := congrArg unescape h
  rw [unescape_escape, unescape_escape] at hread
  cases hread
  exact ⟨rfl, rfl⟩

/-- No escape begins with a quote: the only character that begins its escape itself is a plain
one. -/
theorem escape_append_ne_quote : escape c ++ rest ≠ '"' :: rest' := by
  unfold escape
  repeat' split
  all_goals rintro ⟨⟩
  all_goals contradiction

/-- A quoted text tells its characters and where it ends. -/
theorem quotedChars_append_injective (h : quotedChars cs ++ rest = quotedChars ds ++ rest') :
    cs = ds ∧ rest = rest' := by
  simp only [quotedChars, List.cons_append, List.append_assoc, List.nil_append, List.cons.injEq,
    true_and] at h
  induction cs generalizing ds with
  | nil =>
    cases ds with
    | nil => exact ⟨rfl, (List.cons.inj h).2⟩
    | cons d ds =>
      rw [List.flatMap_cons, List.append_assoc] at h
      exact absurd h.symm escape_append_ne_quote
  | cons c cs ih =>
    rw [List.flatMap_cons, List.append_assoc] at h
    cases ds with
    | nil => exact absurd h escape_append_ne_quote
    | cons d ds =>
      rw [List.flatMap_cons, List.append_assoc] at h
      obtain ⟨rfl, hmore⟩ := escape_append_injective h
      obtain ⟨rfl, hrest⟩ := ih hmore
      exact ⟨rfl, hrest⟩

end Formula.Text
