import PZero.Proofs.Surface.Shape

namespace PZero

/-- A token without its place. -/
abbrev Word := Token.Kind × Bytes

def Token.word (t : Token) : Word := (t.kind, t.lexeme)

namespace Token

def Kind.spelling (kind : Kind) : Bytes :=
  (((keywords ++ symbols).find? (·.2 = kind)).map Prod.fst).getD []

def fixed (kind : Kind) : Word := (kind, kind.spelling)

/-- What stands behind the quote that opens a string literal: bytes and escaped bytes, none of them
a bare newline, up to a quote. -/
inductive IsStringTail : Bytes → Prop
  | close : IsStringTail [34]
  | escaped (b : UInt8) {rest : Bytes} (h : IsStringTail rest) : IsStringTail (92 :: b :: rest)
  | byte {b : UInt8} {rest : Bytes} (hn : b ≠ 10) (hq : b ≠ 34) (hs : b ≠ 92)
      (h : IsStringTail rest) : IsStringTail (b :: rest)

def IsString (text : Bytes) : Prop := ∃ rest, text = 34 :: rest ∧ IsStringTail rest

def IsIdent (name : Bytes) : Prop := Surface.IsName name ∧ name ∉ keywords.map Prod.fst

def IsFloatLiteral (text : Bytes) : Prop := Surface.IsFloat text ∧ ¬Surface.IsDigits text

/-- The texts of each kind of token. -/
def InClass (text : Bytes) : Kind → Prop
  | .ident => IsIdent text
  | .int => Surface.IsDigits text
  | .float => IsFloatLiteral text
  | .string => IsString text
  | .endOfFile => text = []
  | .bad => True
  | kind => text = kind.spelling

end Token

namespace BinaryOp

def kind : BinaryOp → Token.Kind
  | .divide => .slash
  | .minus => .minus
  | .plus => .plus
  | .times => .star
  | .equal => .equal
  | .greaterEqual => .greaterEqual
  | .greater => .greater
  | .lessEqual => .lessEqual
  | .less => .less
  | .notEqual => .notEqual
  | .and => .andAnd
  | .or => .orOr

/-- Whether the operator may have an operand of a level on its left. -/
def TakesLeft (op : BinaryOp) (level : Nat) : Prop :=
  op.level ≤ level ∧ (op.isRelational → op.level < level)

end BinaryOp

def UnaryOp.kind : UnaryOp → Token.Kind
  | .not => .bang
  | .negate => .minus
  | .identity => .plus

namespace Surface

open Token (fixed IsIdent IsFloatLiteral IsString)

def TypeName.kind : TypeName → Token.Kind
  | .int => .intType
  | .float => .floatType
  | .bool => .boolType

mutual

def Expr.words : Expr → List Word
  | .conditional cond then_ else_ _ =>
    cond.words ++ fixed .question :: (then_.words ++ fixed .colon :: else_.words)
  | .binary op left right _ => left.words ++ (op.kind, op.symbol) :: right.words
  | .binaryUnknown symbol left right _ => left.words ++ (.bad, symbol) :: right.words
  | .unary op operand _ => (op.kind, op.symbol) :: operand.words
  | .call callee args _ =>
    (.ident, callee.name) :: fixed .openParen :: (Expr.listWords args ++ [fixed .closeParen])
  | .ident name _ => [(.ident, name)]
  | .paren inner _ => fixed .openParen :: (inner.words ++ [fixed .closeParen])
  | .int text _ => [(.int, text)]
  | .float text _ => [(.float, text)]
  | .string text _ => [(.string, text)]
  | .bool value _ => [fixed (if value then .trueKw else .falseKw)]

def Expr.listWords : List Expr → List Word
  | [] => []
  | [e] => e.words
  | e :: e' :: es => e.words ++ fixed .comma :: Expr.listWords (e' :: es)

end

def declKind (isConst : Bool) : Token.Kind := if isConst then .constKw else .letKw

mutual

def Stmt.words : Stmt → List Word
  | .decl isConst name value _ =>
    fixed (declKind isConst) :: (.ident, name.name) :: fixed .assign ::
      (value.words ++ [fixed .semicolon])
  | .assign name value _ =>
    (.ident, name.name) :: fixed .assign :: (value.words ++ [fixed .semicolon])
  | .if_ cond then_ none _ => fixed .ifKw :: (cond.words ++ then_.words)
  | .if_ cond then_ (some else_) _ =>
    fixed .ifKw :: (cond.words ++ (then_.words ++ fixed .elseKw :: else_.words))
  | .while_ cond body _ => fixed .whileKw :: (cond.words ++ body.words)
  | .block stmts _ => fixed .openBrace :: (Stmt.allWords stmts ++ [fixed .closeBrace])
  | .call callee args _ =>
    (.ident, callee.name) :: fixed .openParen ::
      (Expr.listWords args ++ [fixed .closeParen, fixed .semicolon])
  | .empty _ => [fixed .semicolon]

def Stmt.allWords : List Stmt → List Word
  | [] => []
  | s :: ss => s.words ++ Stmt.allWords ss

end

def Param.words (p : Param) : List Word :=
  [(.ident, p.name.name), fixed .colon, fixed p.type.name.kind]

def Param.listWords : List Param → List Word
  | [] => []
  | [p] => p.words
  | p :: p' :: ps => p.words ++ fixed .comma :: Param.listWords (p' :: ps)

def Result.typeWords : Option Result → List Word
  | none => []
  | some result => [fixed .colon, fixed result.type.name.kind]

def Result.returnWords : Option Result → List Word
  | none => []
  | some result => fixed .returnKw :: (result.value.words ++ [fixed .semicolon])

def Decl.words : Decl → List Word
  | .var isConst name value _ =>
    fixed (declKind isConst) :: (.ident, name.name) :: fixed .assign ::
      (value.words ++ [fixed .semicolon])
  | .fun_ name params body result _ =>
    fixed .funKw :: (.ident, name.name) :: fixed .openParen ::
      (Param.listWords params ++ fixed .closeParen ::
        (Result.typeWords result ++ fixed .openBrace ::
          (Stmt.allWords body ++ (Result.returnWords result ++ [fixed .closeBrace]))))

/-- The words that a program is written with. -/
def Program.words (program : Program) : List Word := program.flatMap Decl.words

/-- How tight an expression binds: conditionals bind least, operands without an operator between
them most. -/
def Expr.level : Expr → Nat
  | .conditional .. | .binaryUnknown .. => 0
  | .binary op _ _ _ => op.level
  | _ => 6

mutual

def Expr.Grammatical : Expr → Prop
  | .conditional cond then_ else_ _ =>
    1 ≤ cond.level ∧ cond.Grammatical ∧ then_.Grammatical ∧ else_.Grammatical
  | .binary op left right _ =>
    op.TakesLeft left.level ∧ op.level < right.level ∧ left.Grammatical ∧ right.Grammatical
  | .binaryUnknown .. => False
  | .unary _ operand _ => operand.level = 6 ∧ operand.Grammatical
  | .call callee args _ => IsIdent callee.name ∧ Expr.AllGrammatical args
  | .ident name _ => IsIdent name
  | .paren inner _ => inner.Grammatical
  | .int text _ => IsDigits text
  | .float text _ => IsFloatLiteral text
  | .string text _ => IsString text
  | .bool _ _ => True

def Expr.AllGrammatical : List Expr → Prop
  | [] => True
  | e :: es => e.Grammatical ∧ Expr.AllGrammatical es

end

/-- Whether an `else` behind a statement would belong to an `if` at its right edge. -/
def Stmt.takesElse : Stmt → Bool
  | .if_ _ _ none _ => true
  | .if_ _ _ (some else_) _ => else_.takesElse
  | .while_ _ body _ => body.takesElse
  | _ => false

mutual

def Stmt.Grammatical : Stmt → Prop
  | .decl _ name value _ | .assign name value _ => IsIdent name.name ∧ value.Grammatical
  | .if_ cond then_ none _ => cond.Grammatical ∧ then_.Grammatical
  | .if_ cond then_ (some else_) _ =>
    cond.Grammatical ∧ then_.Grammatical ∧ then_.takesElse = false ∧ else_.Grammatical
  | .while_ cond body _ => cond.Grammatical ∧ body.Grammatical
  | .block stmts _ => Stmt.AllGrammatical stmts
  | .call callee args _ => IsIdent callee.name ∧ Expr.AllGrammatical args
  | .empty _ => True

def Stmt.AllGrammatical : List Stmt → Prop
  | [] => True
  | s :: ss => s.Grammatical ∧ Stmt.AllGrammatical ss

end

def Decl.Grammatical : Decl → Prop
  | .var _ name value _ => IsIdent name.name ∧ value.IsInitializer ∧ value.Grammatical
  | .fun_ name params body result _ =>
    IsIdent name.name ∧ (∀ p ∈ params, IsIdent p.name.name) ∧ Stmt.AllGrammatical body ∧
      ∀ r ∈ result, r.value.Grammatical

def Program.Grammatical (program : Program) : Prop := ∀ d ∈ program, Decl.Grammatical d

section Shape

mutual

theorem Expr.Grammatical.shaped : ∀ {e : Expr}, e.Grammatical → e.Shaped
  | .conditional .., ⟨_, hc, ht, he⟩ => ⟨hc.shaped, ht.shaped, he.shaped⟩
  | .binary .., ⟨_, _, hl, hr⟩ => ⟨hl.shaped, hr.shaped⟩
  | .unary .., ⟨_, ho⟩ => ho.shaped
  | .call .., ⟨hn, ha⟩ => ⟨hn.1, ha.shaped⟩
  | .ident .., h => h.1
  | .paren inner _, h => Expr.Grammatical.shaped (e := inner) h
  | .int .., h => h
  | .float .., h => h.1
  | .string .., _ | .bool .., _ => trivial

theorem Expr.AllGrammatical.shaped : ∀ {es : List Expr},
    Expr.AllGrammatical es → Expr.AllShaped es
  | [], _ => trivial
  | _ :: _, ⟨he, hes⟩ => ⟨he.shaped, hes.shaped⟩

end

mutual

theorem Stmt.Grammatical.shaped : ∀ {s : Stmt}, s.Grammatical → s.Shaped
  | .decl .., ⟨hn, hv⟩ | .assign .., ⟨hn, hv⟩ => ⟨hn.1, hv.shaped⟩
  | .if_ _ _ none _, ⟨hc, ht⟩ => ⟨hc.shaped, ht.shaped⟩
  | .if_ _ _ (some _) _, ⟨hc, ht, _, he⟩ => ⟨hc.shaped, ht.shaped, he.shaped⟩
  | .while_ .., ⟨hc, hb⟩ => ⟨hc.shaped, hb.shaped⟩
  | .block .., h => Stmt.AllGrammatical.shaped h
  | .call .., ⟨hn, ha⟩ => ⟨hn.1, ha.shaped⟩
  | .empty _, _ => trivial

theorem Stmt.AllGrammatical.shaped : ∀ {ss : List Stmt},
    Stmt.AllGrammatical ss → Stmt.AllShaped ss
  | [], _ => trivial
  | _ :: _, ⟨hs, hss⟩ => ⟨hs.shaped, hss.shaped⟩

end

theorem Decl.Grammatical.shaped : ∀ {d : Decl}, d.Grammatical → d.Shaped
  | .var .., ⟨hn, hi, _⟩ => ⟨hn.1, hi⟩
  | .fun_ .., ⟨hn, hp, hb, hr⟩ =>
    ⟨hn.1, fun p hm ↦ (hp p hm).1, hb.shaped, fun r hm ↦ (hr r hm).shaped⟩

theorem Program.Grammatical.shaped {program : Program} (h : program.Grammatical) :
    program.Shaped :=
  fun d hd ↦ (h d hd).shaped

end Shape

mutual

@[simp] def Expr.bare : Expr → Expr
  | .conditional cond then_ else_ _ => .conditional cond.bare then_.bare else_.bare default
  | .binary op left right _ => .binary op left.bare right.bare default
  | .binaryUnknown symbol left right _ => .binaryUnknown symbol left.bare right.bare default
  | .unary op operand _ => .unary op operand.bare default
  | .call callee args _ => .call ⟨callee.name, default⟩ (Expr.allBare args) default
  | .ident name _ => .ident name default
  | .paren inner _ => .paren inner.bare default
  | .int text _ => .int text default
  | .float text _ => .float text default
  | .string text _ => .string text default
  | .bool value _ => .bool value default

@[simp] def Expr.allBare : List Expr → List Expr
  | [] => []
  | e :: es => e.bare :: Expr.allBare es

end

mutual

@[simp] def Stmt.bare : Stmt → Stmt
  | .decl isConst name value _ => .decl isConst ⟨name.name, default⟩ value.bare default
  | .assign name value _ => .assign ⟨name.name, default⟩ value.bare default
  | .if_ cond then_ none _ => .if_ cond.bare then_.bare none default
  | .if_ cond then_ (some else_) _ => .if_ cond.bare then_.bare (some else_.bare) default
  | .while_ cond body _ => .while_ cond.bare body.bare default
  | .block stmts _ => .block (Stmt.allBare stmts) default
  | .call callee args _ => .call ⟨callee.name, default⟩ (Expr.allBare args) default
  | .empty _ => .empty default

@[simp] def Stmt.allBare : List Stmt → List Stmt
  | [] => []
  | s :: ss => s.bare :: Stmt.allBare ss

end

def Param.bare (p : Param) : Param := ⟨⟨p.name.name, default⟩, ⟨p.type.name, default⟩⟩

def Result.bare (r : Result) : Result := ⟨⟨r.type.name, default⟩, r.value.bare⟩

def Decl.bare : Decl → Decl
  | .var isConst name value _ => .var isConst ⟨name.name, default⟩ value.bare default
  | .fun_ name params body result _ =>
    .fun_ ⟨name.name, default⟩ (params.map Param.bare) (Stmt.allBare body) (result.map Result.bare)
      default

end Surface

end PZero
