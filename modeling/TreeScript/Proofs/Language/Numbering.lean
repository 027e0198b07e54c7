import TreeScript.Language

/-!
# The numbers of the rules

The builders number rules in the order in which they are declared or added. Here each number has a
name, so that what is said of a rule names the rule. The rules of the basic language have the same
numbers in both languages, and those for functions follow.
-/

namespace TreeScript

namespace Language

open Grammar (RuleId)

/-! ## The basic language -/

@[match_pattern] abbrev exprId : RuleId := 0

@[match_pattern] abbrev compoundId : RuleId := 1

@[match_pattern] abbrev parenId : RuleId := 2

@[match_pattern] abbrev numberId : RuleId := 3

@[match_pattern] abbrev nameId : RuleId := 4

@[match_pattern] abbrev stringId : RuleId := 5

@[match_pattern] abbrev primaryId : RuleId := 6

@[match_pattern] abbrev negativeId : RuleId := 7

@[match_pattern] abbrev factorId : RuleId := 8

@[match_pattern] abbrev simpleId : RuleId := 9

@[match_pattern] abbrev separatorId : RuleId := 10

@[match_pattern] abbrev blockEndId : RuleId := 11

@[match_pattern] abbrev blockSimpleId : RuleId := 12

@[match_pattern] abbrev blockStatementId : RuleId := 13

@[match_pattern] abbrev blockId : RuleId := 14

@[match_pattern] abbrev elseId : RuleId := 15

@[match_pattern] abbrev ifId : RuleId := 16

@[match_pattern] abbrev whileId : RuleId := 17

@[match_pattern] abbrev compoundStatementId : RuleId := 18

@[match_pattern] abbrev simpleStatementId : RuleId := 19

@[match_pattern] abbrev nullStatementId : RuleId := 20

@[match_pattern] abbrev programId : RuleId := 21

/-- How many rules the basic language has. -/
abbrev basicSize : Nat := 22

/-! ## Functions -/

@[match_pattern] abbrev paramId : RuleId := 22

@[match_pattern] abbrev paramTailId : RuleId := 23

@[match_pattern] abbrev paramsId : RuleId := 24

@[match_pattern] abbrev paramListId : RuleId := 25

@[match_pattern] abbrev defId : RuleId := 26

@[match_pattern] abbrev argTailId : RuleId := 27

@[match_pattern] abbrev argsId : RuleId := 28

@[match_pattern] abbrev callId : RuleId := 29

/-- How many rules the full language has. -/
abbrev fullSize : Nat := 30

example : [exprId, compoundId, parenId, numberId, nameId, stringId, primaryId, negativeId, factorId,
    simpleId, separatorId, blockEndId, blockSimpleId, blockStatementId, blockId, elseId, ifId,
    whileId, compoundStatementId, simpleStatementId, nullStatementId, programId, paramId,
    paramTailId, paramsId, paramListId, defId, argTailId, argsId, callId].map
      (fun id => (full.grammar.rule id).name) =
    ["expr", "compound", "paren", "number", "name", "string", "primary", "negative", "factor",
    "simple", "separator", "block_end", "block_simple", "block_statement", "block", "else", "if",
    "while", "compound_statement", "simple_statement", "null_statement", "program", "param",
    "param_tail", "params", "param_list", "def", "arg_tail", "args", "postfix"] := by
  decide +kernel

end Language

end TreeScript
