import TreeScript.Source

/-!
# The lines of a source

A text that ends with a line break is cut apart from any text after it (`ofText_append`).

A line break is one byte, and no other character has this byte in its encoding. So the bytes of a
text are cut into lines where the text itself is (`ofBytes_toUTF8`).
-/

namespace TreeScript

namespace Source

/-! ## Texts that end with a line -/

/-- The text ends with a line break. -/
def EndsLine (text : String) : Prop := text.toList.getLast? = some '\n'

instance (text : String) : Decidable (EndsLine text) :=
  inferInstanceAs (Decidable (text.toList.getLast? = some '\n'))

/-- After the end of a line the rest of a text is on lines of its own. -/
theorem ofText_append {text : String} (h : EndsLine text) (more : String) :
    ofText (text ++ more) = ofText text ++ ofText more := by
  obtain ⟨cs, hcs⟩ := List.getLast?_eq_some_iff.1 h
  have hcut : cut '\n' (cs ++ '\n' :: more.toList) =
      cut '\n' (cs ++ ['\n']) ++ cut '\n' more.toList :=
    cut_append_mark '\n' cs more.toList
  simp [ofText, hcs, hcut]

/-- What has no mark in it joins the current line. -/
theorem cutFrom_append_of_notMem {α : Type} [DecidableEq α] {mark : α} {xs : List α}
    (h : mark ∉ xs) (ys line : List α) :
    cutFrom mark line (xs ++ ys) = cutFrom mark (xs.reverse ++ line) ys := by
  induction xs generalizing line with
  | nil => rfl
  | cons x xs ih =>
      have hx : x ≠ mark := fun he => h (by simp [he])
      have hxs : mark ∉ xs := fun hmem => h (List.mem_cons_of_mem _ hmem)
      rw [List.cons_append, cutFrom, if_neg hx, ih hxs]
      simp

/-- Without a mark before it, the last mark ends the only line. -/
theorem cutFrom_of_notMem {α : Type} [DecidableEq α] {mark : α} {xs : List α} (h : mark ∉ xs)
    (line : List α) : cutFrom mark line (xs ++ [mark]) = [line.reverse ++ xs ++ [mark]] := by
  rw [cutFrom_append_of_notMem h]
  simp [cutFrom]

/-- A text with a line break at its end and nowhere else is a single line. -/
theorem ofText_line {text : String} {cs : List Char} (hcs : '\n' ∉ cs)
    (htext : text.toList = cs ++ ['\n']) : ofText text = [.text text] := by
  have hcut : cut '\n' (cs ++ ['\n']) = [[].reverse ++ cs ++ ['\n']] := cutFrom_of_notMem hcs []
  rw [ofText, htext, hcut, List.reverse_nil, List.nil_append, ← htext, List.map_singleton,
    String.ofList_toList]

/-- The byte of a line break stands for nothing else. -/
theorem notMem_utf8EncodeChar {c : Char} (h : c ≠ '\n') : 10 ∉ String.utf8EncodeChar c := by
  have hval : c.val.toNat ≠ 10 := fun he => h (Char.ext (UInt32.toNat_inj.1 he))
  have hbyte : ∀ k, k < 256 → k ≠ 10 → (10 : UInt8) ≠ UInt8.ofNat k := by
    intro k hlt hne he
    have hk := congrArg UInt8.toNat he
    rw [UInt8.toNat_ofNat_of_lt' hlt] at hk
    exact hne hk.symm
  unfold String.utf8EncodeChar
  simp only
  split
  · simpa using hbyte _ (by omega) hval
  · split
    · simp only [List.mem_cons, List.not_mem_nil, or_false, not_or]
      exact ⟨hbyte _ (by omega) (by omega), hbyte _ (by omega) (by omega)⟩
    · split
      · simp only [List.mem_cons, List.not_mem_nil, or_false, not_or]
        exact ⟨hbyte _ (by omega) (by omega), hbyte _ (by omega) (by omega),
          hbyte _ (by omega) (by omega)⟩
      · simp only [List.mem_cons, List.not_mem_nil, or_false, not_or]
        exact ⟨hbyte _ (by omega) (by omega), hbyte _ (by omega) (by omega),
          hbyte _ (by omega) (by omega), hbyte _ (by omega) (by omega)⟩

/-- The bytes of characters are cut where the characters are. -/
theorem cutFrom_flatMap (cs line : List Char) :
    cutFrom 10 (line.reverse.flatMap String.utf8EncodeChar).reverse
        (cs.flatMap String.utf8EncodeChar) =
      (cutFrom '\n' line cs).map (·.flatMap String.utf8EncodeChar) := by
  induction cs generalizing line with
  | nil =>
      cases line with
      | nil => rfl
      | cons c line =>
          have hne : String.utf8EncodeChar c ≠ [] := by
            rw [← List.length_pos_iff, String.length_utf8EncodeChar]
            exact c.utf8Size_pos
          simp [cutFrom, hne]
  | cons c cs ih =>
      by_cases hc : c = '\n'
      · subst hc
        have hrest := ih []
        have hmark : String.utf8EncodeChar '\n' = [10] := by decide
        rw [List.reverse_nil, List.flatMap_nil, List.reverse_nil] at hrest
        rw [List.flatMap_cons, hmark, List.singleton_append, cutFrom, if_pos rfl, cutFrom,
          if_pos rfl, List.map_cons, hrest]
        simp [hmark]
      · rw [List.flatMap_cons, cutFrom_append_of_notMem (notMem_utf8EncodeChar hc), cutFrom,
          if_neg hc, ← ih]
        simp

theorem lineOfBytes_flatMap (cs : List Char) :
    lineOfBytes (cs.flatMap String.utf8EncodeChar) = .text (String.ofList cs) := by
  have hbytes : ByteArray.mk (cs.flatMap String.utf8EncodeChar).toArray = cs.utf8Encode :=
    ByteArray.ext List.data_toByteArray.symm
  have htext : String.fromUTF8? cs.utf8Encode = some (String.ofList cs) := by
    rw [String.fromUTF8?, dif_pos ByteArray.isValidUTF8_utf8Encode, Option.some.injEq,
      ← String.toByteArray_inj, String.toByteArray_ofList]
    rfl
  rw [lineOfBytes, hbytes, htext]

/-- The lines of a text are those of its bytes. -/
theorem ofBytes_toUTF8 (text : String) : ofBytes text.toUTF8 = ofText text := by
  have hbytes : text.toUTF8.data.toList = text.toList.flatMap String.utf8EncodeChar := by
    have hencode : text.toUTF8 = text.toList.utf8Encode := String.utf8Encode_toList.symm
    rw [hencode, List.utf8Encode, List.data_toByteArray]
  have hcut := cutFrom_flatMap text.toList []
  rw [List.reverse_nil, List.flatMap_nil, List.reverse_nil] at hcut
  rw [ofBytes, ofText, hbytes, cut, cut, hcut, List.map_map]
  exact List.map_congr_left fun cs _ => lineOfBytes_flatMap cs

end Source

end TreeScript
