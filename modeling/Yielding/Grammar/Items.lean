import Yielding.Grammar.Rule

/-!
# Grammar/Items — the rules of iterator items

An item is `fn* NAME(PARAMS) yields TYPE { .. }`, `gen fn NAME(PARAMS) -> TYPE { .. }`, or a
function whose body ends in a `gen` block.  Bodies are written in a small statement language with
`yield` and the postfix `?`.
-/

namespace Yielding.Grammar

open Terminal in
def headerRules : List Rule :=
  List.flatten
    [scheme .root .same [sub .item],
     scheme .item .item
      [may (sub .docLines), may (sub .attrs), may (keep kwPub), may (keep kwAsync),
       sub .itemKeyword, keep name, may (sub .generics), skip lpar, may (sub .params), skip rpar,
       sub .yieldsClause, sub .block],
     scheme .item .genItem
      [may (sub .docLines), may (sub .attrs), may (keep kwPub), keep kwFn, keep name,
       may (sub .generics), skip lpar, may (sub .params), skip rpar, may (sub .resultType),
       sub .genBody],
     scheme .itemKeyword .starKeyword [keep kwFn, keep star],
     scheme .itemKeyword .genKeyword [keep kwGen, keep kwFn],
     scheme .yieldsClause .yieldsClause [keep kwYields, sub .type],
     scheme .yieldsClause .yieldsClause [keep arrow, sub .type],
     scheme .genBody .genBody [skip lbrace, may (sub .stmts), sub .genBlock, skip rbrace],
     scheme .genBlock .genBlock
      [may (sub .attrs), may (keep kwAsync), keep kwGen, sub .block],
     scheme .attr .attr
      [keep hash, skip lsqb, keep name, may (sub .attrArgs), skip rsqb],
     scheme .attrArgs .attrArgs [skip lpar, may (sub .callArgs), skip rpar],
     scheme .generics .generics
      [skip lt, sub .genericParam, may (sub .moreGenericParams), may (skip comma), skip gt],
     scheme .genericParam .genericParam
      [keep name, skip colon, sub .typePath, may (sub .moreTypePaths)],
     scheme .genericParam .genericParam [keep name],
     scheme .genericParam .lifetimeParam [keep lifetime],
     scheme .params .params [sub .param, may (sub .moreParams), may (skip comma)],
     scheme .param .selfParam [may (keep amp), may (keep kwMut), keep kwSelf],
     scheme .param .typedParam [may (keep kwMut), keep name, skip colon, sub .type],
     scheme .docLines .row [keep docComment],
     scheme .docLines .row [sub .docLines, keep docComment],
     scheme .attrs .row [sub .attr],
     scheme .attrs .row [sub .attrs, sub .attr],
     scheme .moreGenericParams .row [skip comma, sub .genericParam],
     scheme .moreGenericParams .row [sub .moreGenericParams, skip comma, sub .genericParam],
     scheme .moreTypePaths .row [skip plus, sub .typePath],
     scheme .moreTypePaths .row [sub .moreTypePaths, skip plus, sub .typePath],
     scheme .moreParams .row [skip comma, sub .param],
     scheme .moreParams .row [sub .moreParams, skip comma, sub .param]]

open Terminal in
def typeRules : List Rule :=
  List.flatten
    [scheme .type .refType [keep amp, may (keep lifetime), may (keep kwMut), sub .type],
     scheme .type .unitType [skip lpar, skip rpar],
     scheme .type .same [skip lpar, sub .type, skip rpar],
     scheme .type .tupleType
      [skip lpar, sub .type, skip comma, sub .type, may (sub .moreTypes), may (skip comma),
       skip rpar],
     scheme .type .tupleType [skip lpar, sub .type, skip comma, skip rpar],
     scheme .type .sliceType [skip lsqb, sub .type, skip rsqb],
     scheme .type .implType [keep kwImpl, sub .bound, may (sub .moreBounds)],
     scheme .type .inferType [skip underscore],
     scheme .type .same [sub .typePath],
     scheme .bound .same [sub .typePath],
     scheme .bound .same [keep lifetime],
     scheme .typePath .typePath [keep name, may (sub .moreSegments), may (sub .typeArgs)],
     scheme .typeArgs .typeArgs
      [skip lt, sub .typeArg, may (sub .moreTypeArgs), may (skip comma), skip gt],
     scheme .typeArg .same [sub .type],
     scheme .typeArg .assocType [keep name, skip equal, sub .type],
     scheme .moreTypes .row [skip comma, sub .type],
     scheme .moreTypes .row [sub .moreTypes, skip comma, sub .type],
     scheme .moreBounds .row [skip plus, sub .bound],
     scheme .moreBounds .row [sub .moreBounds, skip plus, sub .bound],
     scheme .moreSegments .row [skip colonColon, keep name],
     scheme .moreSegments .row [sub .moreSegments, skip colonColon, keep name],
     scheme .moreTypeArgs .row [skip comma, sub .typeArg],
     scheme .moreTypeArgs .row [sub .moreTypeArgs, skip comma, sub .typeArg]]

open Terminal in
def stmtRules : List Rule :=
  List.flatten
    [scheme .block .block [skip lbrace, may (sub .stmts), may (sub .expr), skip rbrace],
     scheme .stmts .row [sub .stmt],
     scheme .stmts .row [sub .stmts, sub .stmt],
     scheme .stmt .same [sub .letStmt],
     scheme .stmt .same [sub .assignStmt],
     scheme .stmt .same [sub .exprStmt],
     scheme .stmt .same [sub .returnStmt],
     scheme .stmt .same [sub .breakStmt],
     scheme .stmt .same [sub .continueStmt],
     scheme .stmt .same [sub .ifStmt],
     scheme .stmt .same [sub .whileStmt],
     scheme .stmt .same [sub .loopStmt],
     scheme .stmt .same [sub .forStmt],
     scheme .stmt .same [sub .block],
     scheme .stmt .same [sub .fnItem],
     scheme .stmt .same [sub .matchStmt],
     scheme .stmt .emptyStmt [skip semicolon],
     scheme .letStmt .letStmt
      [skip kwLet, sub .pattern, may (sub .ascription), skip equal, sub .expr, may (sub .letElse),
       skip semicolon],
     scheme .ascription .ascription [skip colon, sub .type],
     scheme .letElse .letElse [skip kwElse, sub .block],
     scheme .assignStmt .assignStmt [sub .expr, sub .assignOp, sub .expr, skip semicolon],
     scheme .assignOp .same [keep equal],
     scheme .assignOp .same [keep plusEq],
     scheme .assignOp .same [keep minusEq],
     scheme .assignOp .same [keep starEq],
     scheme .assignOp .same [keep slashEq],
     scheme .assignOp .same [keep percentEq],
     scheme .exprStmt .exprStmt [sub .expr, skip semicolon],
     scheme .returnStmt .returnStmt [skip kwReturn, may (sub .expr), skip semicolon],
     scheme .breakStmt .breakStmt [skip kwBreak, skip semicolon],
     scheme .continueStmt .continueStmt [skip kwContinue, skip semicolon],
     scheme .ifStmt .ifStmt [skip kwIf, sub .condition, sub .block, may (sub .elseClause)],
     scheme .elseClause .elseIf [skip kwElse, sub .ifStmt],
     scheme .elseClause .elseBlock [skip kwElse, sub .block],
     scheme .condition .same [sub .expr],
     scheme .condition .letCondition [skip kwLet, sub .pattern, skip equal, sub .expr],
     scheme .whileStmt .whileStmt [skip kwWhile, sub .condition, sub .block],
     scheme .loopStmt .loopStmt [skip kwLoop, sub .block],
     scheme .forStmt .forStmt [skip kwFor, sub .pattern, skip kwIn, sub .expr, sub .block],
     scheme .matchStmt .matchStmt
      [skip kwMatch, sub .expr, skip lbrace, may (sub .arms), may (sub .lastArm), skip rbrace],
     scheme .matchArm .matchArm
      [sub .pattern, may (sub .matchGuard), skip fatArrow, sub .block, may (skip comma)],
     scheme .matchArm .matchArm
      [sub .pattern, may (sub .matchGuard), skip fatArrow, sub .expr, skip comma],
     scheme .lastArm .matchArm [sub .pattern, may (sub .matchGuard), skip fatArrow, sub .expr],
     scheme .matchGuard .matchGuard [skip kwIf, sub .expr],
     scheme .arms .row [sub .matchArm],
     scheme .arms .row [sub .arms, sub .matchArm],
     scheme .fnItem .fnItem
      [skip kwFn, keep name, skip lpar, may (sub .params), skip rpar, may (sub .resultType),
       sub .block],
     scheme .resultType .resultType [skip arrow, sub .type]]

open Terminal in
def patternRules : List Rule :=
  List.flatten
    [scheme .pattern .bindPattern [may (keep kwMut), keep name],
     scheme .pattern .wildcardPattern [skip underscore],
     scheme .pattern .variantPattern [keep name, skip lpar, sub .pattern, skip rpar],
     scheme .pattern .unitPattern [skip lpar, skip rpar],
     scheme .pattern .parenPattern [skip lpar, sub .pattern, skip rpar],
     scheme .pattern .tuplePattern
      [skip lpar, sub .pattern, skip comma, sub .pattern, may (sub .morePatterns),
       may (skip comma), skip rpar],
     scheme .pattern .tuplePattern [skip lpar, sub .pattern, skip comma, skip rpar],
     scheme .pattern .restPattern [keep dotDot],
     scheme .pattern .literalPattern [may (keep minus), keep int],
     scheme .pattern .literalPattern [keep string],
     scheme .pattern .literalPattern [keep char],
     scheme .pattern .literalPattern [keep kwTrue],
     scheme .pattern .literalPattern [keep kwFalse],
     scheme .morePatterns .row [skip comma, sub .pattern],
     scheme .morePatterns .row [sub .morePatterns, skip comma, sub .pattern]]

open Terminal in
/-- The rules of expressions, from the loosest operator to the tightest. -/
def exprRules : List Rule :=
  List.flatten
    [scheme .expr .same [sub .yieldExpr],
     scheme .expr .same [sub .range],
     scheme .yieldExpr .yieldExpr [skip kwYield, may (sub .range)],
     scheme .range .same [sub .disjunction],
     scheme .range .range [sub .disjunction, keep dotDot, sub .disjunction],
     scheme .range .range [sub .disjunction, keep dotDotEq, sub .disjunction],
     scheme .disjunction .same [sub .conjunction],
     scheme .disjunction .binary [sub .disjunction, keep barBar, sub .conjunction],
     scheme .conjunction .same [sub .comparison],
     scheme .conjunction .binary [sub .conjunction, keep ampAmp, sub .comparison],
     scheme .comparison .same [sub .sum],
     scheme .comparison .binary [sub .sum, sub .compareOp, sub .sum],
     scheme .compareOp .same [keep eqEq],
     scheme .compareOp .same [keep notEq],
     scheme .compareOp .same [keep lt],
     scheme .compareOp .same [keep ltEq],
     scheme .compareOp .same [keep gt],
     scheme .compareOp .same [keep gtEq],
     scheme .sum .same [sub .product],
     scheme .sum .binary [sub .sum, sub .sumOp, sub .product],
     scheme .sumOp .same [keep plus],
     scheme .sumOp .same [keep minus],
     scheme .product .same [sub .unary],
     scheme .product .binary [sub .product, sub .productOp, sub .unary],
     scheme .productOp .same [keep star],
     scheme .productOp .same [keep slash],
     scheme .productOp .same [keep percent],
     scheme .unary .same [sub .postfixed],
     scheme .unary .unary [keep minus, sub .unary],
     scheme .unary .unary [keep bang, sub .unary],
     scheme .unary .unary [keep star, sub .unary],
     scheme .unary .borrow [keep amp, may (keep kwMut), sub .unary],
     scheme .postfixed .same [sub .primary],
     scheme .postfixed .call [sub .postfixed, skip lpar, may (sub .callArgs), skip rpar],
     scheme .postfixed .field [sub .postfixed, skip dot, keep name],
     scheme .postfixed .tupleField [sub .postfixed, skip dot, keep int],
     scheme .postfixed .index [sub .postfixed, skip lsqb, sub .expr, skip rsqb],
     scheme .postfixed .tryExpr [sub .postfixed, skip question],
     scheme .postfixed .awaitExpr [sub .postfixed, skip dot, keep kwAwait],
     scheme .callArgs .callArgs [sub .expr, may (sub .moreExprs), may (skip comma)],
     scheme .primary .name [keep name],
     scheme .primary .selfName [keep kwSelf],
     scheme .primary .path [keep name, sub .moreSegments],
     scheme .primary .literal [keep int],
     scheme .primary .literal [keep float],
     scheme .primary .literal [keep string],
     scheme .primary .literal [keep char],
     scheme .primary .literal [keep kwTrue],
     scheme .primary .literal [keep kwFalse],
     scheme .primary .unitLiteral [skip lpar, skip rpar],
     scheme .primary .same [skip lpar, sub .expr, skip rpar],
     scheme .primary .tuple
      [skip lpar, sub .expr, skip comma, sub .expr, may (sub .moreExprs), may (skip comma),
       skip rpar],
     scheme .primary .tuple [skip lpar, sub .expr, skip comma, skip rpar],
     scheme .primary .array [skip lsqb, may (sub .callArgs), skip rsqb],
     scheme .primary .macroCall
      [keep name, skip bang, skip lsqb, may (sub .callArgs), skip rsqb],
     scheme .primary .macroCall
      [keep name, skip bang, skip lpar, may (sub .callArgs), skip rpar],
     scheme .moreExprs .row [skip comma, sub .expr],
     scheme .moreExprs .row [sub .moreExprs, skip comma, sub .expr]]

/-- The rules of iterator items; the first one is the rule of whole texts. -/
def itemRules : List Rule := headerRules ++ typeRules ++ stmtRules ++ patternRules ++ exprRules

end Yielding.Grammar
