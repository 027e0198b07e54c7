import TreeScript.Text.Quoted
import Mathlib.Data.List.Basic

/-!
# Reading texts back

What is written can be told from what stands after it. Two runs of characters of one sort are the
same if what comes after each is of another sort (`append_inj_of_head`). A number is known by its
hexadecimal digits, a character by the way it is written between quotes, and a quoted text by what
stands between its quotes (`quoted_append_inj`).
-/

namespace TreeScript.Text

/-! ## Runs of one sort -/

/-- Two runs of characters of one sort, each before a character of another sort or at the end. -/
theorem append_inj_of_head {P : Char → Prop} {xs ys rest rest' : List Char}
    (hx : ∀ c ∈ xs, P c) (hy : ∀ c ∈ ys, P c) (hr : ∀ c ∈ rest.head?, ¬ P c)
    (hr' : ∀ c ∈ rest'.head?, ¬ P c) (h : xs ++ rest = ys ++ rest') : xs = ys ∧ rest = rest' := by
  induction xs generalizing ys with
  | nil =>
      cases ys with
      | nil => exact ⟨rfl, h⟩
      | cons y ys =>
          obtain rfl : rest = y :: (ys ++ rest') := h
          exact absurd (hy y List.mem_cons_self) (hr y rfl)
  | cons x xs ih =>
      cases ys with
      | nil =>
          obtain rfl : x :: (xs ++ rest) = rest' := h
          exact absurd (hx x List.mem_cons_self) (hr' x rfl)
      | cons y ys =>
          obtain ⟨rfl, hrest⟩ := List.cons.inj h
          obtain ⟨rfl, rfl⟩ := ih (fun c hc => hx c (List.mem_cons_of_mem _ hc))
            (fun c hc => hy c (List.mem_cons_of_mem _ hc)) hrest
          exact ⟨rfl, rfl⟩

/-! ## Hexadecimal digits -/

theorem hexDigits_eq_if (n : Nat) : hexDigits n =
    if n < 16 then [n.digitChar] else hexDigits (n / 16) ++ [(n % 16).digitChar] :=
  Nat.toDigits_eq_if (by decide)

theorem digitChar_inj : ∀ m < 16, ∀ n < 16, m.digitChar = n.digitChar → m = n := by decide

/-- A number is known by its digits. -/
theorem hexDigits_injective : Function.Injective hexDigits := by
  intro m
  induction m using Nat.strongRecOn with
  | ind m ih =>
      intro n h
      rw [hexDigits_eq_if m, hexDigits_eq_if n] at h
      split at h
      · split at h
        · exact digitChar_inj m ‹_› n ‹_› (List.singleton_inj.1 h)
        · exact absurd (List.append_eq_singleton_iff.1 h.symm)
            (by simp [hexDigits, Nat.toDigits_ne_nil])
      · split at h
        · exact absurd (List.append_eq_singleton_iff.1 h) (by simp [hexDigits, Nat.toDigits_ne_nil])
        · obtain ⟨hdiv, hmod⟩ := List.append_inj' h rfl
          have hdiv := ih (m / 16) (by omega) hdiv
          have hmod := digitChar_inj _ (Nat.mod_lt m (by decide)) _ (Nat.mod_lt n (by decide))
            (List.singleton_inj.1 hmod)
          omega

theorem digitChar_ne_brace : ∀ n < 16, n.digitChar ≠ '\x7d' := by decide

/-- No digit is the brace that ends an escape. -/
theorem ne_brace_of_mem_hexDigits {n : Nat} {c : Char} (h : c ∈ hexDigits n) : c ≠ '\x7d' := by
  induction n using Nat.strongRecOn with
  | ind n ih =>
      rw [hexDigits_eq_if] at h
      split at h
      · rw [List.mem_singleton.1 h]
        exact digitChar_ne_brace n ‹_›
      · rcases List.mem_append.1 h with h | h
        · exact ih (n / 16) (by omega) h
        · rw [List.mem_singleton.1 h]
          exact digitChar_ne_brace _ (Nat.mod_lt n (by decide))

/-! ## Quoted text -/

/-- The characters that are written with a letter of their own, and their letters. -/
def letters : List (Char × Char) :=
  [('"', '"'), ('\\', '\\'), ('\n', 'n'), ('\r', 'r'), ('\t', 't'), ('\x00', '0')]

/-- The ways to write a character between quotes. -/
inductive Written (c : Char) : List Char → Prop where
  /-- With a letter. -/
  | letter {letter : Char} : (c, letter) ∈ letters → Written c ['\\', letter]
  /-- By its number. -/
  | number : Written c ('\\' :: 'u' :: '\x7b' :: (hexDigits c.toNat ++ ['\x7d']))
  /-- As it is. -/
  | plain : c ≠ '"' → c ≠ '\\' → Written c [c]

theorem written_quotedChar (c : Char) : Written c (quotedChar c) := by
  unfold quotedChar
  split_ifs with hquote hback hline hreturn htab hzero hnumber
  · exact .letter (by rw [hquote]; decide)
  · exact .letter (by rw [hback]; decide)
  · exact .letter (by rw [hline]; decide)
  · exact .letter (by rw [hreturn]; decide)
  · exact .letter (by rw [htab]; decide)
  · exact .letter (by rw [hzero]; decide)
  · exact .number
  · exact .plain hquote hback

theorem letters_ne : ∀ pair ∈ letters, pair.2 ≠ 'u' := by decide

theorem letters_inj : ∀ pair ∈ letters, ∀ pair' ∈ letters, pair.2 = pair'.2 → pair.1 = pair'.1 := by
  decide

/-- A character is known by the way it is written, whatever follows. -/
theorem Written.append_inj {c d : Char} {xs ys rest rest' : List Char} (hc : Written c xs)
    (hd : Written d ys) (h : xs ++ rest = ys ++ rest') : c = d ∧ rest = rest' := by
  cases hc with
  | letter hc =>
      cases hd with
      | letter hd =>
          simp only [List.cons_append, List.nil_append, List.cons.injEq, true_and] at h
          exact ⟨letters_inj _ hc _ hd h.1, h.2⟩
      | number =>
          simp only [List.cons_append, List.nil_append, List.cons.injEq, true_and] at h
          exact absurd h.1 (letters_ne _ hc)
      | plain _ hback => exact absurd (List.cons.inj h).1.symm hback
  | number =>
      cases hd with
      | letter hd =>
          simp only [List.cons_append, List.nil_append, List.cons.injEq, true_and] at h
          exact absurd h.1.symm (letters_ne _ hd)
      | number =>
          simp only [List.cons_append, List.append_assoc, List.nil_append, List.cons.injEq,
            true_and] at h
          obtain ⟨hdigits, hrest⟩ := append_inj_of_head (P := (· ≠ '\x7d'))
            (fun _ => ne_brace_of_mem_hexDigits) (fun _ => ne_brace_of_mem_hexDigits)
            (by simp) (by simp) h
          exact ⟨Char.toNat_inj.1 (hexDigits_injective hdigits), (List.cons.inj hrest).2⟩
      | plain _ hback => exact absurd (List.cons.inj h).1.symm hback
  | plain _ hback =>
      cases hd with
      | letter => exact absurd (List.cons.inj h).1 hback
      | number => exact absurd (List.cons.inj h).1 hback
      | plain => exact List.cons.inj h

/-- No character is written with a quote in front. -/
theorem Written.ne_quote {c d : Char} {xs rest rest' : List Char} (hc : Written c xs)
    (h : xs ++ rest = d :: rest') : d ≠ '"' := by
  cases hc with
  | letter => exact (List.cons.inj h).1 ▸ by decide
  | number => exact (List.cons.inj h).1 ▸ by decide
  | plain hquote => exact (List.cons.inj h).1 ▸ hquote

/-- Two texts in quotes that begin a text are equal, and so is what comes after them. -/
theorem quotedChars_append_inj {cs ds rest rest' : List Char}
    (h : quotedChars cs ++ '"' :: rest = quotedChars ds ++ '"' :: rest') :
    cs = ds ∧ rest = rest' := by
  induction cs generalizing ds with
  | nil =>
      cases ds with
      | nil => exact ⟨rfl, (List.cons.inj h).2⟩
      | cons d ds =>
          rw [quotedChars_cons, List.append_assoc] at h
          exact absurd rfl ((written_quotedChar d).ne_quote h.symm)
  | cons c cs ih =>
      cases ds with
      | nil =>
          rw [quotedChars_cons, List.append_assoc] at h
          exact absurd rfl ((written_quotedChar c).ne_quote h)
      | cons d ds =>
          rw [quotedChars_cons, quotedChars_cons, List.append_assoc, List.append_assoc] at h
          obtain ⟨rfl, hrest⟩ := (written_quotedChar c).append_inj (written_quotedChar d) h
          obtain ⟨rfl, rfl⟩ := ih hrest
          exact ⟨rfl, rfl⟩

/-- A quoted text is known by what stands between its quotes, whatever follows. -/
theorem quoted_append_inj {text text' : String} {rest rest' : List Char}
    (h : (quoted text).toList ++ rest = (quoted text').toList ++ rest') :
    text = text' ∧ rest = rest' := by
  simp only [quoted, String.toList_ofList, List.cons_append, List.append_assoc, List.nil_append,
    List.cons.injEq, true_and] at h
  obtain ⟨htext, hrest⟩ := quotedChars_append_inj h
  exact ⟨String.toList_inj.1 htext, hrest⟩

end TreeScript.Text
