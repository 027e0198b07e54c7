import TreeScript.Grammar

/-!
# Writing down a grammar

A grammar is written down as a sequence of steps, each of which may use the rules of
the steps before it.
-/

namespace TreeScript.Grammar

/-- A step of building a grammar. -/
abbrev Builder := StateM Grammar

namespace Builder

/-- Adds a rule whose results stand for themselves. -/
def rule (name : String) (elements : List Element) : Builder RuleId :=
  modifyGet fun grammar => grammar.add (.plain name elements)

/-- Adds a rule that builds a branch. -/
def ruleOf (name : String) (kind : Tree.BranchKind) (elements : List Element) : Builder RuleId :=
  modifyGet fun grammar => grammar.add ⟨name, .branch kind, elements⟩

/-- Makes a place for a rule that is defined later. -/
def declare (name : String) : Builder RuleId :=
  modifyGet fun grammar => grammar.declare name

/-- Defines a rule that was declared. -/
def define (id : RuleId) (name : String) (elements : List Element) : Builder Unit :=
  modify fun grammar => grammar.define id (.plain name elements)

/-- Adds elements at the end of a rule. -/
def extend (id : RuleId) (elements : List Element) : Builder Unit :=
  modify fun grammar => grammar.extend id elements

/-- Adds a choice at the start of a rule. -/
def insertChoice (id : RuleId) (choice : RuleId) : Builder Unit :=
  modify fun grammar => grammar.insertChoice id choice

/-- Reserves a word. -/
def reserve (word : String) : Builder Unit :=
  modify fun grammar => grammar.reserve word

/-- A text that is taken and dropped. -/
def sep (text : String) : Element := .literal [text] false

end Builder

end TreeScript.Grammar
