/-!
# Source lines

A source is a list of lines, each with the line break that ends it. Only the last
line may lack one. A source may also come as bytes, and then a line of it need not
be text. Such a line is *garbled*.
-/

namespace TreeScript

/-- One line of a source. -/
inductive Line where
  /-- A line of text, with its line break if it has one. -/
  | text (content : String)
  /-- A line of bytes that are not text. -/
  | garbled
deriving DecidableEq, Repr

/-- A source, line by line. -/
abbrev Source := List Line

namespace Source

/-- Cuts a list after each occurrence of a mark. `line` is what the current line
has so far, last item first. An empty rest gives no line. -/
def cutFrom {α : Type} [DecidableEq α] (mark : α) (line : List α) : List α → List (List α)
  | [] => if line.isEmpty then [] else [line.reverse]
  | x :: xs =>
      if x = mark then (x :: line).reverse :: cutFrom mark [] xs else cutFrom mark (x :: line) xs
termination_by structural xs => xs

/-- Cuts a list after each occurrence of a mark. -/
def cut {α : Type} [DecidableEq α] (mark : α) (xs : List α) : List (List α) := cutFrom mark [] xs

/-- The lines of a text. -/
def ofText (text : String) : Source :=
  (cut '\n' text.toList).map fun line => .text (String.ofList line)

/-- One line of bytes. -/
def lineOfBytes (bytes : List UInt8) : Line :=
  match String.fromUTF8? ⟨bytes.toArray⟩ with
  | some content => .text content
  | none => .garbled

/-- The lines of a sequence of bytes. -/
def ofBytes (bytes : ByteArray) : Source := (cut 10 bytes.data.toList).map lineOfBytes

theorem cutFrom_append_mark {α : Type} [DecidableEq α] (mark : α) (xs ys : List α) :
    ∀ line, cutFrom mark line (xs ++ mark :: ys) =
      cutFrom mark line (xs ++ [mark]) ++ cut mark ys := by
  induction xs with
  | nil => intro line; simp [cutFrom, cut]
  | cons x xs ih =>
      intro line
      by_cases h : x = mark
      · simp only [List.cons_append, cutFrom, if_pos h, ih]
      · simp only [List.cons_append, cutFrom, if_neg h, ih]

/-- A text that ends in a mark is cut apart from what follows it. -/
theorem cut_append_mark {α : Type} [DecidableEq α] (mark : α) (xs ys : List α) :
    cut mark (xs ++ mark :: ys) = cut mark (xs ++ [mark]) ++ cut mark ys :=
  cutFrom_append_mark mark xs ys []

theorem flatten_cutFrom {α : Type} [DecidableEq α] (mark : α) (xs : List α) :
    ∀ line, (cutFrom mark line xs).flatten = line.reverse ++ xs := by
  induction xs with
  | nil => intro line; cases line <;> simp [cutFrom]
  | cons x xs ih =>
      intro line
      by_cases h : x = mark
      · simp [cutFrom, h, ih]
      · simp [cutFrom, h, ih]

/-- Cutting loses nothing. -/
theorem flatten_cut {α : Type} [DecidableEq α] (mark : α) (xs : List α) :
    (cut mark xs).flatten = xs := by
  simpa [cut] using flatten_cutFrom mark xs []

end Source

end TreeScript
