import TreeScript.Proofs.Language.Extension
import TreeScript.Proofs.Program.Delivers

/-!
# Programs of the basic language

A source in which no `def` stands and that the basic language parses is parsed by the full language
into the same statements, and running it does the same (`parseAll_of_basic`).
-/

namespace TreeScript

namespace Program

open Grammar TokenStream TreeScript.Language TreeScript.Derivation

/-- What the basic language delivers to the end is delivered by the full one. -/
theorem Delivers.of_basic {s : TokenStream} {trees : List Tree} {tokens : List Token}
    (h : Delivers basic s trees none) (hs : s.Shows tokens []) (hd : DefFree tokens) :
    Delivers full s trees none := by
  generalize hending : none = ending at h
  induction h generalizing tokens with
  | ended hpeek hend => exact .ended hpeek hend
  | unread => cases hending
  | broken => cases hending
  | next hpeek hend hg _ ih =>
      obtain ⟨-, -, ht⟩ := shows_of_peek hs hpeek
      obtain ⟨rest, u', hu, hsuffix, hg', hu'⟩ := exists_gives_of_basic ht hd hg
      have hrest := (ih hu (hd.suffix hsuffix) hending).of_items_eq (.inl rfl)
        (hu'.1.trans hu.1.symm)
      exact .next hpeek hend hg' hrest

/-- What parses is delivered to the end. -/
theorem delivers_of_gives_parseAll {language : Language} (hl : language = full ∨ language = basic)
    {σ : Type} {source : Source} {x y : σ} {trees : List Tree}
    (h : (parseAll language source).Gives x trees y) :
    y = x ∧ Delivers language (ofSource source) trees none := by
  obtain ⟨found, ending, hd⟩ := exists_delivers hl (ofSource source)
  cases ending with
  | some error => exact absurd (hd.stops_parseAll hl x) h.not_stops
  | none =>
      obtain ⟨rfl, rfl⟩ := h.unique (hd.gives_parseAll hl x)
      exact ⟨rfl, hd⟩

/-- A source without `def` that the basic language parses is parsed by the full language into the
same statements. Running it gives the same value or error and the same heap. -/
theorem parseAll_of_basic (source : Source)
    (hdef : ∀ token, .ok token ∈ (ofSource source).items → ¬ IsWord "def" token)
    {σ : Type} {x y : σ} {trees : List Tree} (h : (parseAll basic source).Gives x trees y) :
    (parseAll full source).Gives x trees y ∧
      ∀ budget heap, (run full budget source heap).result? =
        (run basic budget source heap).result? := by
  obtain ⟨rfl, hbasic⟩ := delivers_of_gives_parseAll (.inr rfl) h
  obtain ⟨tokens, tail, hs⟩ := (ofSource source).exists_shows
  have hplain := allPlain_ofSource hs
  obtain rfl := hbasic.tail_eq_nil (.inr rfl) hs hplain
  have hd : DefFree tokens := by
    refine ⟨hplain, fun token hmem => hdef token ?_⟩
    rw [hs.1, List.append_nil]
    exact List.mem_map_of_mem hmem
  have hfull := hbasic.of_basic hs hd
  refine ⟨hfull.gives_parseAll (.inl rfl) y, fun budget heap => ?_⟩
  rw [result?_run (.inl rfl) hfull, result?_run (.inr rfl) hbasic]

/-- A parenthesis may stand after a separator: the statement before it is no call. -/
theorem parseAll_of_basic_countdown :
    let source := Source.ofText "n = 3\nwhile n > 1 \x7b n = n - 1; (n) \x7d\n"
    (∀ token, .ok token ∈ (ofSource source).items → ¬ IsWord "def" token) ∧
      ∃ trees, trees.length = 2 ∧ (parseAll basic source).Gives () trees () ∧
        (parseAll full source).Gives () trees () ∧
        ∀ budget heap, (run full budget source heap).result? =
          (run basic budget source heap).result? := by
  intro source
  have hdef : ∀ token, .ok token ∈ (ofSource source).items → ¬ IsWord "def" token := by
    have hall : ((ofSource source).items.all fun item =>
        item.toOption.all fun token => token.kind != .word "def") = true := by decide +kernel
    intro token hmem
    exact bne_iff_ne.1 (List.all_eq_true.1 hall _ hmem)
  have hparse : (parseAll basic source ()).value?.map (·.1.length) = some 2 := by decide +kernel
  obtain ⟨⟨trees, _⟩, hvalue, hlength⟩ := Option.map_eq_some_iff.1 hparse
  have hbasic := Action.gives_of_value? hvalue
  exact ⟨hdef, trees, hlength, hbasic, parseAll_of_basic source hdef hbasic⟩

end Program

end TreeScript
