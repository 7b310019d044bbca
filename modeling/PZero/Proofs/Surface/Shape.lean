import PZero.Surface
import PZero.Token.Scan

namespace PZero.Surface

def IsDigits (text : Bytes) : Prop := text ≠ [] ∧ ∀ b ∈ text, Bytes.isDigit b

/-- Letters, digits and underscores, the first of them no digit. -/
def IsName (name : Bytes) : Prop :=
  (∃ b rest, name = b :: rest ∧ Token.isWordStart b) ∧ ∀ b ∈ name, Token.isWordByte b

def IsFraction (text : Bytes) : Prop := text = [] ∨ ∃ digits, text = 46 :: digits ∧ IsDigits digits

def IsExponent (text : Bytes) : Prop :=
  text = [] ∨ ∃ mark sign digits, text = mark :: (sign ++ digits) ∧ mark ∈ [101, 69] ∧
    sign ∈ [[], [43], [45]] ∧ IsDigits digits

def IsFloat (text : Bytes) : Prop :=
  ∃ whole fraction exponent, text = whole ++ (fraction ++ exponent) ∧ IsDigits whole ∧
    IsFraction fraction ∧ IsExponent exponent

mutual

def Expr.Shaped : Expr → Prop
  | .conditional cond then_ else_ _ => cond.Shaped ∧ then_.Shaped ∧ else_.Shaped
  | .binary _ left right _ => left.Shaped ∧ right.Shaped
  | .binaryUnknown _ _ _ _ => False
  | .unary _ operand _ => operand.Shaped
  | .call callee args _ => IsName callee.name ∧ Expr.AllShaped args
  | .ident name _ => IsName name
  | .paren inner _ => inner.Shaped
  | .int text _ => IsDigits text
  | .float text _ => IsFloat text
  | .string _ _ | .bool _ _ => True

def Expr.AllShaped : List Expr → Prop
  | [] => True
  | e :: es => e.Shaped ∧ Expr.AllShaped es

end

mutual

def Stmt.Shaped : Stmt → Prop
  | .decl _ name value _ | .assign name value _ => IsName name.name ∧ value.Shaped
  | .if_ cond then_ none _ => cond.Shaped ∧ then_.Shaped
  | .if_ cond then_ (some else_) _ => cond.Shaped ∧ then_.Shaped ∧ else_.Shaped
  | .while_ cond body _ => cond.Shaped ∧ body.Shaped
  | .block stmts _ => Stmt.AllShaped stmts
  | .call callee args _ => IsName callee.name ∧ Expr.AllShaped args
  | .empty _ => True

def Stmt.AllShaped : List Stmt → Prop
  | [] => True
  | s :: ss => s.Shaped ∧ Stmt.AllShaped ss

end

def Expr.IsNumber : Expr → Prop
  | .int text _ => IsDigits text
  | .float text _ => IsFloat text
  | _ => False

/-- What a top-level variable may start with. -/
def Expr.IsInitializer : Expr → Prop
  | .bool _ _ => True
  | .unary op operand _ => op ≠ .not ∧ operand.IsNumber
  | e => e.IsNumber

def Decl.Shaped : Decl → Prop
  | .var _ name value _ => IsName name.name ∧ value.IsInitializer
  | .fun_ name params body result _ =>
    IsName name.name ∧ (∀ p ∈ params, IsName p.name.name) ∧ Stmt.AllShaped body ∧
      ∀ r ∈ result, r.value.Shaped

/-- A program as the parser gives it. -/
def Program.Shaped (program : Program) : Prop := ∀ d ∈ program, Decl.Shaped d

end PZero.Surface
