import TreeScript.Proofs.Grammar.Leaves

/-!
# The first leaf is on the first line

The first leaf of a tree need not be the first token that was taken: words that are dropped may come
before it. No line can end among them if every rule that may begin the tree is *firm*. Such a rule
begins with texts that are dropped and are no ends of lines, and then comes an element that always
keeps a token and is firm itself. This can be read off the table (`Firm`).

What a firm rule takes is `Led`: a few words, none of which ends a line, and then the first leaf.
-/

namespace TreeScript

namespace Grammar

/-! ## Rules that keep a token of their first line -/

/-- The element always keeps a token, if rules are firm as given. -/
def Element.isFirm (firm : RuleId → Bool) : Element → Bool
  | .tree rule => firm rule
  | .choice rules => rules.all firm
  | .token _ _ => true
  | .literal texts true => !texts.contains Token.endOfLineText
  | .expression factor _ _ => firm factor
  | _ => false

/-- The element drops a text. -/
def Element.dropsText : Element → Bool
  | .literal _ false => true
  | _ => false

/-- The element drops a text that does not end a line. -/
def Element.dropsWord : Element → Bool
  | .literal texts false => !texts.contains Token.endOfLineText
  | _ => false

/-- The elements begin with words that are dropped, and then one is firm. -/
def beginsFirm (firm : RuleId → Bool) : List Element → Bool
  | [] => false
  | element :: elements =>
      element.isFirm firm || element.dropsWord && beginsFirm firm elements
termination_by structural elements => elements

/-- The rules in question are firm. -/
def Firm (grammar : Grammar) (firm : RuleId → Bool) : Prop :=
  ∀ rule, firm rule = true → beginsFirm firm (grammar.rule rule).elements = true

/-! ## Tokens before the first leaf -/

/-- Of the tokens that are taken, the first one that is kept comes before the end of a line. -/
inductive Led : List Token → List Token → Prop where
  | intro (lead : List Token) {leaf : Token} {taken kept : List Token}
      (hlead : ∀ token ∈ lead, token.isEndOfLine = false) (hleaf : leaf.isEndOfLine = false) :
      Led (lead ++ leaf :: taken) (leaf :: kept)

namespace Led

variable {taken kept : List Token}

theorem single {token : Token} (h : token.isEndOfLine = false) : Led [token] [token] :=
  .intro [] nofun h

/-- What comes after the first token that is kept does not matter. -/
theorem append (h : Led taken kept) (taken' kept' : List Token) :
    Led (taken ++ taken') (kept ++ kept') := by
  cases h with
  | intro lead hlead hleaf =>
      rw [List.append_assoc]
      exact .intro lead hlead hleaf

/-- A token of the same line may come before. -/
theorem cons {token : Token} (htoken : token.isEndOfLine = false) (h : Led taken kept) :
    Led (token :: taken) kept := by
  cases h with
  | intro lead hlead hleaf =>
      exact .intro (token :: lead) (List.forall_mem_cons.2 ⟨htoken, hlead⟩) hleaf

end Led

theorem isEndOfLine_of_isLiteral_of_not_contains {texts : List String} {token : Token}
    (h : isLiteral texts token = true) (htexts : (!texts.contains Token.endOfLineText) = true) :
    token.isEndOfLine = false := by
  apply isEndOfLine_of_isLiteral h
  simpa using htexts

/-- A word that is dropped is one token. -/
theorem exists_token_of_dropsWord {grammar : Grammar} {element : Element} {taken kept : List Token}
    (hdrops : element.dropsWord = true) (h : ElementYields grammar element taken kept) :
    ∃ token, taken = [token] ∧ kept = [] ∧ token.isEndOfLine = false := by
  cases h with
  | dropped hliteral =>
      exact ⟨_, rfl, rfl, isEndOfLine_of_isLiteral_of_not_contains hliteral hdrops⟩
  | tree | choice | absent | again | once | empty | filled | token | kept | ahead | operand
    | operator => cases hdrops

section Yields

variable {grammar : Grammar} {firm : RuleId → Bool}

mutual
/-- A firm rule keeps a token of its first line. -/
theorem Yields.led {id : RuleId} {taken kept : List Token} (hgrammar : Firm grammar firm)
    (hid : firm id = true) : Yields grammar id taken kept → Led taken kept
  | .rule h => YieldsAll.led hgrammar (hgrammar id hid) h

/-- The tokens before the first one that is kept are on its line. -/
theorem YieldsAll.led {elements : List Element} {taken kept : List Token}
    (hgrammar : Firm grammar firm) (hfirm : beginsFirm firm elements = true) :
    YieldsAll grammar elements taken kept → Led taken kept
  | .nil => by cases hfirm
  | .cons h hs => by
      rw [beginsFirm, Bool.or_eq_true, Bool.and_eq_true] at hfirm
      cases hfirm with
      | inl hfirm => exact (ElementYields.led hgrammar hfirm h).append _ _
      | inr hfirm =>
          obtain ⟨token, htaken, hkept, htoken⟩ := exists_token_of_dropsWord hfirm.1 h
          rw [htaken, hkept]
          exact (YieldsAll.led hgrammar hfirm.2 hs).cons htoken

/-- A firm element drops nothing that ends a line before it keeps a token. -/
theorem ElementYields.led {element : Element} {taken kept : List Token}
    (hgrammar : Firm grammar firm) (hfirm : element.isFirm firm = true) :
    ElementYields grammar element taken kept → Led taken kept
  | .tree h => h.led hgrammar hfirm
  | .choice hrule h => h.led hgrammar (List.all_eq_true.1 hfirm _ hrule)
  | .token haccepts => .single (isEndOfLine_of_accepts haccepts)
  | .kept hliteral => .single (isEndOfLine_of_isLiteral_of_not_contains hliteral hfirm)
  | .operand h => h.led hgrammar hfirm
  | .operator h _ _ => (ElementYields.led hgrammar hfirm h).append _ _
end

/-- Elements that only drop texts keep nothing. -/
theorem YieldsAll.kept_eq_nil {elements : List Element} {taken kept : List Token}
    (hdrops : elements.all Element.dropsText = true) :
    YieldsAll grammar elements taken kept → kept = []
  | .nil => rfl
  | .cons h hs => by
      rw [List.all_cons, Bool.and_eq_true] at hdrops
      rw [YieldsAll.kept_eq_nil hdrops.2 hs, List.append_nil]
      cases h with
      | dropped => rfl
      | tree | choice | absent | again | once | empty | filled | token | kept | ahead | operand
        | operator => cases hdrops.1

/-- A rule that chooses between firm rules and such that keep nothing: if it keeps a token, then one
of its first line. -/
theorem Yields.led_of_choice {id : RuleId} {rules : List RuleId} {taken kept : List Token}
    (hgrammar : Firm grammar firm) (hid : (grammar.rule id).elements = [.choice rules])
    (hrules : ∀ rule ∈ rules,
      firm rule = true ∨ (grammar.rule rule).elements.all Element.dropsText = true)
    (h : Yields grammar id taken kept) (hkept : kept ≠ []) : Led taken kept := by
  cases h with
  | rule h =>
      rw [hid] at h
      cases h with
      | cons h hs =>
          cases hs
          rw [List.append_nil] at hkept ⊢
          rw [List.append_nil]
          cases h with
          | @choice _ rule _ _ hrule h =>
              cases hrules rule hrule with
              | inl hfirm => exact h.led hgrammar hfirm
              | inr hdrops =>
                  cases h with
                  | rule h => exact absurd (h.kept_eq_nil hdrops) hkept

end Yields

end Grammar

end TreeScript
