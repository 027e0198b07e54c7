import Mathlib.Data.List.TakeWhile
import TreeScript.Grammar

/-!
# Operators between operands

The operands of an expression after the first one come with an operator before them.
Such a pair is a *link*. A chain of links can be put together in two ways.

`climb` goes from the left. The first operator takes the operand to its left. Its right
operand is its own one together with the links after it that take that operand. What comes
out is the left operand of the links that are left.

`Splits` looks at the whole chain. A chain without links is its first operand. Any other
one is cut at an operator that binds loosest, the last such operator if it groups to the
left and the first one if it groups to the right.

If operators that bind equally tight group the same way, a chain splits in one way only
(`Splits.unique`), and climbing gives that tree (`splits_climb`).
-/

namespace TreeScript

namespace Grammar

/-- An operator with the operand to its right. -/
structure Link where
  /-- The token of the operator. -/
  operator : Token
  /-- How tightly it binds. -/
  precedence : Precedence
  /-- The operand. -/
  operand : Tree

namespace Link

/-- How tightly the operator of a link binds. -/
def value (link : Link) : Nat := link.precedence.value

/-- Whether another link takes the operand of this one. -/
def lends (link other : Link) : Bool := other.precedence.takesOperandOf link.value

/-- An operator that lends its operand binds no tighter than the one that takes it. -/
theorem value_le_of_lends {link other : Link} (h : link.lends other = true) :
    link.value ≤ other.value := by
  unfold lends Precedence.takesOperandOf at h
  unfold value at h ⊢
  split at h
  · have := of_decide_eq_true h
    omega
  · exact of_decide_eq_true h

/-- To an operator that groups to the left it lends only if it binds looser. -/
theorem value_lt_of_lends {link other : Link} (h : link.lends other = true)
    (hl : other.precedence.associativity = .left) : link.value < other.value := by
  unfold lends Precedence.takesOperandOf at h
  rw [hl] at h
  exact of_decide_eq_true h

/-- An operator that does not lend its operand binds at least as tight as the other one. -/
theorem value_le_of_not_lends {link other : Link} (h : link.lends other = false) :
    other.value ≤ link.value := by
  unfold lends Precedence.takesOperandOf at h
  unfold value at h ⊢
  split at h
  · have := of_decide_eq_false h
    omega
  · have := of_decide_eq_false h
    omega

/-- If the other one groups to the right, it even binds tighter. -/
theorem value_lt_of_not_lends {link other : Link} (h : link.lends other = false)
    (hr : other.precedence.associativity = .right) : other.value < link.value := by
  unfold lends Precedence.takesOperandOf at h
  rw [hr] at h
  have : ¬ link.value ≤ other.precedence.value := of_decide_eq_false h
  unfold value at this ⊢
  omega

end Link

/-! ## Two ways to put a chain together -/

/-- The tree of an operand and the links after it, put together from the left. -/
def climb (kind : Tree.BranchKind) (left : Tree) : List Link → Tree
  | [] => left
  | link :: links =>
      climb kind
        (.branch kind [left, .leaf .plain link.operator,
          climb kind link.operand (links.takeWhile link.lends)])
        (links.dropWhile link.lends)
termination_by links => links.length
decreasing_by
  · have := (links.takeWhile_prefix link.lends).length_le
    simp only [List.length_cons]
    omega
  · have := (links.dropWhile_suffix link.lends).length_le
    simp only [List.length_cons]
    omega

/-- The tree of an operand and the links after it, cut at the loosest operator. -/
inductive Splits (kind : Tree.BranchKind) : Tree → List Link → Tree → Prop where
  /-- One operand is its own tree. -/
  | single (operand : Tree) : Splits kind operand [] operand
  /-- No operator binds looser than `link`, and of those that bind as loose it is the
  last or the first one. -/
  | split {operand : Tree} {before : List Link} {link : Link} {after : List Link}
      {left right : Tree} :
      (∀ other ∈ before ++ after, link.value ≤ other.value) →
      (link.precedence.associativity = .left → ∀ other ∈ after, link.value < other.value) →
      (link.precedence.associativity = .right → ∀ other ∈ before, link.value < other.value) →
      Splits kind operand before left →
      Splits kind link.operand after right →
      Splits kind operand (before ++ link :: after)
        (.branch kind [left, .leaf .plain link.operator, right])

/-- Links that bind equally tight group the same way. -/
def Consistent (links : List Link) : Prop :=
  ∀ link ∈ links, ∀ other ∈ links, link.value = other.value →
    link.precedence.associativity = other.precedence.associativity

theorem Consistent.sublist {links links' : List Link} (h : Consistent links)
    (hs : links'.Sublist links) : Consistent links' :=
  fun link hl other ho => h link (hs.subset hl) other (hs.subset ho)

/-- Operators that bind equally tight group the same way. -/
def Operators.Consistent (operators : Operators) : Prop :=
  ∀ name name' precedence precedence', operators.get? name = some precedence →
    operators.get? name' = some precedence' → precedence.value = precedence'.value →
    precedence.associativity = precedence'.associativity

/-- A table is consistent if its rows are. -/
theorem Operators.consistent_of_rows {operators : Operators}
    (h : ∀ row ∈ operators.rows, ∀ row' ∈ operators.rows, row.2.value = row'.2.value →
      row.2.associativity = row'.2.associativity) : operators.Consistent := by
  have hmem : ∀ (rows : List (String × Precedence)) name precedence,
      rows.lookup name = some precedence → (name, precedence) ∈ rows := by
    intro rows name precedence hl
    obtain ⟨before, after, rfl, -⟩ := List.lookup_eq_some_iff.1 hl
    simp
  intro name name' precedence precedence' hp hp' hvalue
  exact h _ (hmem _ _ _ hp) _ (hmem _ _ _ hp') hvalue

theorem Operators.get?_of_ofToken? {operators : Operators} {token : Token}
    {precedence : Precedence} (h : operators.ofToken? token = some precedence) :
    operators.get? token.toText = some precedence := by
  unfold Operators.ofToken? at h
  split at h
  · exact h
  · cases h

/-- Links of a consistent table are consistent. -/
theorem Operators.Consistent.links {operators : Operators} (hc : operators.Consistent)
    {links : List Link}
    (h : ∀ link ∈ links, operators.ofToken? link.operator = some link.precedence) :
    Grammar.Consistent links :=
  fun link hl other ho hvalue => hc _ _ _ _ (Operators.get?_of_ofToken? (h link hl))
    (Operators.get?_of_ofToken? (h other ho)) hvalue

/-! ## A chain splits in one way -/

/-- Of two places to split, the first is not before the second. -/
theorem not_split_twice {before between after : List Link} {link other : Link}
    (hc : Consistent (before ++ link :: (between ++ other :: after)))
    (hlow : ∀ l ∈ before ++ (between ++ other :: after), link.value ≤ l.value)
    (hleft : link.precedence.associativity = .left →
      ∀ l ∈ between ++ other :: after, link.value < l.value)
    (hlow' : ∀ l ∈ (before ++ link :: between) ++ after, other.value ≤ l.value)
    (hright : other.precedence.associativity = .right →
      ∀ l ∈ before ++ link :: between, other.value < l.value) : False := by
  have h₁ : link.value ≤ other.value := hlow other (by simp)
  have h₂ : other.value ≤ link.value := hlow' link (by simp)
  have ha := hc link (by simp) other (by simp) (by omega)
  cases hassoc : link.precedence.associativity with
  | left =>
      have := hleft hassoc other (by simp)
      omega
  | right =>
      have := hright (ha ▸ hassoc) link (by simp)
      omega

/-- The split is where the loosest operator stands, and of equal ones the last or the first as they
group. So there is one way to split, and both sides are shorter. -/
theorem Splits.unique {kind : Tree.BranchKind} {operand : Tree} {links : List Link} {tree : Tree}
    (h : Splits kind operand links tree) :
    ∀ {tree' : Tree}, Consistent links → Splits kind operand links tree' → tree' = tree := by
  induction h with
  | single operand =>
      intro tree' _ h'
      generalize hl : ([] : List Link) = links at h'
      cases h' with
      | single => rfl
      | split => simp at hl
  | @split operand before link after left right hlow hleft hright _ _ ihl ihr =>
      intro tree' hc h'
      generalize hl : before ++ link :: after = links at h'
      cases h' with
      | single => simp at hl
      | @split _ before' link' after' left' right' hlow' hleft' hright' hl' hr' =>
          rcases List.append_eq_append_iff.1 hl with ⟨mid, hb, ha⟩ | ⟨mid, hb, ha⟩
          · cases mid with
            | nil =>
                simp only [List.append_nil, List.nil_append, List.cons.injEq] at hb ha
                obtain ⟨rfl, rfl⟩ := ha
                subst hb
                rw [ihl (hc.sublist (List.sublist_append_left _ _)) hl',
                  ihr (hc.sublist ((List.sublist_cons_self _ _).trans
                    (List.sublist_append_right _ _))) hr']
            | cons first mid =>
                simp only [List.cons_append, List.cons.injEq] at ha
                obtain ⟨rfl, rfl⟩ := ha
                subst hb
                exact (not_split_twice hc hlow hleft hlow' hright').elim
          · cases mid with
            | nil =>
                simp only [List.append_nil, List.nil_append, List.cons.injEq] at hb ha
                obtain ⟨rfl, rfl⟩ := ha
                subst hb
                rw [ihl (hc.sublist (List.sublist_append_left _ _)) hl',
                  ihr (hc.sublist ((List.sublist_cons_self _ _).trans
                    (List.sublist_append_right _ _))) hr']
            | cons first mid =>
                simp only [List.cons_append, List.cons.injEq] at ha
                obtain ⟨rfl, rfl⟩ := ha
                subst hb
                rw [hl] at hc
                exact (not_split_twice hc hlow' hleft' hlow hright).elim

/-! ## Climbing splits a chain -/

section Graft

variable {link next : Link} {drawn before after : List Link}

/-- What a link that groups to the left draws to its right binds tighter. One that binds equally
tight would group to the left too. -/
theorem value_lt_of_draws (hd : ∀ other ∈ drawn, link.lends other = true)
    (hc : Consistent (link :: drawn)) (hl : link.precedence.associativity = .left) :
    ∀ other ∈ drawn, link.value < other.value := by
  intro other ho
  have hle := Link.value_le_of_lends (hd other ho)
  by_contra hlt
  have ha := hc link (by simp) other (by simp [ho]) (by omega)
  have := Link.value_lt_of_lends (hd other ho) (ha ▸ hl)
  omega

/-- The operator at which a chain splits binds no tighter than its first one. -/
theorem exists_first (hlow : ∀ other ∈ before ++ after, next.value ≤ other.value)
    (hf : ∀ first rest, before ++ next :: after = first :: rest → link.lends first = false) :
    ∃ first ∈ before ++ next :: after, link.lends first = false ∧ next.value ≤ first.value := by
  cases before with
  | nil => exact ⟨next, List.mem_cons_self, hf next after rfl, Nat.le_refl _⟩
  | cons first rest =>
      exact ⟨first, List.mem_cons_self, hf first _ rfl, hlow first (by simp)⟩

/-- If the first operator does not take the operand of a link, the chain splits at a looser
operator, unless that groups to the left. -/
theorem value_lt_of_first {first : Link} (hlends : link.lends first = false)
    (hle : next.value ≤ first.value) (hright : next.precedence.associativity = .right)
    (hc : next.value = first.value →
      next.precedence.associativity = first.precedence.associativity) :
    next.value < link.value := by
  have hfirst := Link.value_le_of_not_lends hlends
  cases hassoc : first.precedence.associativity with
  | right =>
      have := Link.value_lt_of_not_lends hlends hassoc
      omega
  | left =>
      by_contra hge
      have ha := hc (by omega)
      rw [hright, hassoc] at ha
      cases ha

end Graft

/-- A link with what it draws to its right, put before a chain whose first operator does
not take its operand, does not change where that chain splits. -/
theorem Splits.graft {kind : Tree.BranchKind} {operand right : Tree} {link : Link}
    {drawn : List Link} (hr : Splits kind link.operand drawn right)
    (hd : ∀ other ∈ drawn, link.lends other = true) {links : List Link} {tree : Tree}
    (h : Splits kind (.branch kind [operand, .leaf .plain link.operator, right]) links tree) :
    Consistent (link :: (drawn ++ links)) →
    (∀ first rest, links = first :: rest → link.lends first = false) →
    Splits kind operand (link :: (drawn ++ links)) tree := by
  have hdrawn : ∀ other ∈ drawn, link.value ≤ other.value :=
    fun other ho => Link.value_le_of_lends (hd other ho)
  generalize hn : Tree.branch kind [operand, .leaf .plain link.operator, right] = node at h
  induction h with
  | single =>
      intro hc _
      subst hn
      rw [List.append_nil] at hc ⊢
      rw [← List.nil_append (link :: drawn)]
      refine .split ?_ (value_lt_of_draws hd hc) (by simp) (.single operand) hr
      intro other ho
      exact hdrawn other (by simpa using ho)
  | @split _ before next after left right' hlow hleft hright _ hr' ihl _ =>
      intro hc hf
      have hbefore : ∀ first rest, before = first :: rest → link.lends first = false := by
        rintro first rest rfl
        exact hf first _ rfl
      have hsub : (link :: (drawn ++ before)).Sublist
          (link :: (drawn ++ (before ++ next :: after))) := by
        rw [← List.append_assoc]
        exact (List.sublist_append_left (drawn ++ before) (next :: after)).cons_cons link
      have hleftTree := ihl hn (hc.sublist hsub) hbefore
      obtain ⟨first, hmem, hlends, hfirst⟩ := exists_first hlow hf
      have hle := Link.value_le_of_not_lends hlends
      rw [← List.append_assoc, ← List.cons_append]
      refine .split ?_ hleft ?_ hleftTree hr'
      · intro other ho
        simp only [List.cons_append, List.mem_cons, List.mem_append] at ho
        rcases ho with rfl | (ho | ho) | ho
        · omega
        · have := hdrawn other ho
          omega
        · exact hlow other (by simp [ho])
        · exact hlow other (by simp [ho])
      · intro hassoc other ho
        have hlt := value_lt_of_first hlends hfirst hassoc (hc next (by simp) first
          (List.mem_cons_of_mem _ (List.mem_append_right _ hmem)))
        simp only [List.mem_cons, List.mem_append] at ho
        rcases ho with rfl | ho | ho
        · exact hlt
        · have := hdrawn other ho
          omega
        · exact hright hassoc other ho

/-- Climbing cuts a chain at its loosest operator. -/
theorem splits_climb (kind : Tree.BranchKind) (operand : Tree) (links : List Link) :
    Consistent links → Splits kind operand links (climb kind operand links) := by
  fun_induction climb kind operand links with
  | case1 operand => exact fun _ => .single operand
  | case2 operand link links ihr ihl =>
      intro hc
      have hsplit : links.takeWhile link.lends ++ links.dropWhile link.lends = links :=
        List.takeWhile_append_dropWhile
      have hr := ihr (hc.sublist
        ((links.takeWhile_prefix link.lends).sublist.trans (List.sublist_cons_self _ _)))
      have hl := ihl (hc.sublist
        ((links.dropWhile_suffix link.lends).sublist.trans (List.sublist_cons_self _ _)))
      have hg := Splits.graft hr (fun other ho => List.mem_takeWhile_imp ho) hl
        (by rw [hsplit]; exact hc) ?_
      · rwa [hsplit] at hg
      · intro first rest hd
        have := List.head_dropWhile_not link.lends (l := links) (by simp [hd])
        simpa [hd] using this

/-! ## Tokens -/

/-- The tokens of a chain are those of its operands and operators. -/
theorem tokens_climb (kind : Tree.BranchKind) (left : Tree) (links : List Link) :
    (climb kind left links).tokens =
      left.tokens ++ links.flatMap fun link => link.operator :: link.operand.tokens := by
  fun_induction climb kind left links with
  | case1 left => simp
  | case2 left link links ihright ih =>
      rw [ih]
      simp only [Tree.tokens, Tree.tokensOf, ihright, List.append_nil, List.append_assoc,
        List.cons_append, List.nil_append, List.flatMap_cons]
      rw [← List.flatMap_append, List.takeWhile_append_dropWhile]

end Grammar

end TreeScript
