import Mathlib.Data.List.Pairwise
import PZero.Proofs.Surface.Grammar

namespace PZero.Surface

open Token (fixed)

inductive Node
  | mk (span : Span) (words : List Word) (parts : List Node)

namespace Node

def span : Node → Span
  | .mk span _ _ => span

def words : Node → List Word
  | .mk _ words _ => words

/-- The nodes right below. -/
def parts : Node → List Node
  | .mk _ _ parts => parts

mutual

def all : Node → List Node
  | .mk span words parts => .mk span words parts :: listAll parts

def listAll : List Node → List Node
  | [] => []
  | n :: ns => n.all ++ listAll ns

end

end Node

def Ident.node (x : Ident) : Node := .mk x.span [(.ident, x.name)] []

def TypeRef.node (t : TypeRef) : Node := .mk t.span [fixed t.name.kind] []

mutual

def Expr.node : Expr → Node
  | e@(.conditional cond then_ else_ _) =>
    .mk e.span e.words [cond.node, then_.node, else_.node]
  | e@(.binary _ left right _) | e@(.binaryUnknown _ left right _) =>
    .mk e.span e.words [left.node, right.node]
  | e@(.unary _ operand _) => .mk e.span e.words [operand.node]
  | e@(.call callee args _) => .mk e.span e.words (callee.node :: Expr.listNodes args)
  | e@(.paren inner _) => .mk e.span e.words [inner.node]
  | e@(.ident _ _) | e@(.int _ _) | e@(.float _ _) | e@(.string _ _) | e@(.bool _ _) =>
    .mk e.span e.words []

def Expr.listNodes : List Expr → List Node
  | [] => []
  | e :: es => e.node :: Expr.listNodes es

end

mutual

def Stmt.node : Stmt → Node
  | s@(.decl _ name value _) | s@(.assign name value _) =>
    .mk s.span s.words [name.node, value.node]
  | s@(.if_ cond then_ none _) => .mk s.span s.words [cond.node, then_.node]
  | s@(.if_ cond then_ (some else_) _) =>
    .mk s.span s.words [cond.node, then_.node, else_.node]
  | s@(.while_ cond body _) => .mk s.span s.words [cond.node, body.node]
  | s@(.block stmts _) => .mk s.span s.words (Stmt.listNodes stmts)
  | s@(.call callee args _) => .mk s.span s.words (callee.node :: Expr.listNodes args)
  | s@(.empty _) => .mk s.span s.words []

def Stmt.listNodes : List Stmt → List Node
  | [] => []
  | s :: ss => s.node :: Stmt.listNodes ss

end

def Param.nodes (p : Param) : List Node := [p.name.node, p.type.node]

/-- The type of a value function stands before its statements, the returned value behind them. -/
def Result.typeNodes (result : Option Result) : List Node :=
  (result.map fun r ↦ r.type.node).toList

def Result.valueNodes (result : Option Result) : List Node :=
  (result.map fun r ↦ r.value.node).toList

def Decl.span : Decl → Span
  | .var _ _ _ s | .fun_ _ _ _ _ s => s

def Decl.node : Decl → Node
  | d@(.var _ name value _) => .mk d.span d.words [name.node, value.node]
  | d@(.fun_ name params body result _) =>
    .mk d.span d.words (name.node :: (params.flatMap Param.nodes ++ (Result.typeNodes result ++
      (Stmt.listNodes body ++ Result.valueNodes result))))

section Placed

variable {s s' : Span} {ts a b mid : List Token} {ns ms : List Node} {n : Node}
  {words words' : List Word}

/-- Tokens one behind the other. -/
def InOrder (ts : List Token) : Prop :=
  ts.Pairwise (fun s t ↦ s.span.stop ≤ t.span.start) ∧ ∀ t ∈ ts, t.span.start ≤ t.span.stop

/-- A span goes from the start of the first of some tokens to the end of the last. -/
def Extends (s : Span) (ts : List Token) : Prop :=
  ∃ first ∈ ts.head?, ∃ last ∈ ts.getLast?, s = ⟨first.span.start, last.span.stop⟩

mutual

def Node.Placed : Node → List Token → Prop
  | .mk span words parts, own =>
    own.map Token.word = words ∧ Extends span own ∧ Node.AllPlaced parts own

def Node.AllPlaced : List Node → List Token → Prop
  | [], _ => True
  | n :: ns, ts => ∃ before own after, ts = before ++ (own ++ after) ∧ n.Placed own ∧
    Node.AllPlaced ns after

end

theorem InOrder.left (h : InOrder (a ++ b)) : InOrder a :=
  ⟨(List.pairwise_append.1 h.1).1, fun t ht ↦ h.2 t (List.mem_append_left _ ht)⟩

theorem InOrder.right (h : InOrder (a ++ b)) : InOrder b :=
  ⟨(List.pairwise_append.1 h.1).2.1, fun t ht ↦ h.2 t (List.mem_append_right _ ht)⟩

theorem InOrder.apart (h : InOrder (a ++ b)) {s t : Token} (hs : s ∈ a) (ht : t ∈ b) :
    s.span.stop ≤ t.span.start :=
  (List.pairwise_append.1 h.1).2.2 s hs t ht

theorem InOrder.first_le (h : InOrder ts) {first t : Token} (hf : first ∈ ts.head?) (ht : t ∈ ts) :
    first.span.start ≤ t.span.start := by
  obtain ⟨ts, rfl⟩ := List.head?_eq_some_iff.1 hf
  rcases List.mem_cons.1 ht with rfl | ht
  · exact Int.le_refl _
  · exact Int.le_trans (h.2 first List.mem_cons_self) ((List.pairwise_cons.1 h.1).1 t ht)

theorem InOrder.le_last (h : InOrder ts) {last t : Token} (hl : last ∈ ts.getLast?) (ht : t ∈ ts) :
    t.span.stop ≤ last.span.stop := by
  obtain ⟨before, rfl⟩ := List.getLast?_eq_some_iff.1 hl
  rcases List.mem_append.1 ht with ht | ht
  · have hlast := List.mem_singleton_self last
    exact Int.le_trans (h.apart ht hlast) (h.2 last (List.mem_append_right _ hlast))
  · obtain rfl := List.mem_singleton.1 ht
    exact Int.le_refl _

theorem extends_token (t : Token) : Extends t.span [t] := ⟨t, rfl, t, rfl, rfl⟩

/-- What is between the first tokens and the last ones does not matter. -/
theorem Extends.join (h : Extends s a) (h' : Extends s' b) (ho : InOrder (a ++ (mid ++ b))) :
    Extends (s.join s') (a ++ (mid ++ b)) := by
  obtain ⟨first, hf, last, hl, rfl⟩ := h
  obtain ⟨first', hf', last', hl', rfl⟩ := h'
  refine ⟨first, by simp [List.head?_append, Option.mem_def.1 hf], last',
    by simp [List.getLast?_append, Option.mem_def.1 hl'], ?_⟩
  have hfirst := List.mem_of_mem_head? hf
  have hlast' := List.mem_append_right mid (List.mem_of_mem_getLast? hl')
  have hfirst' := List.mem_append_right mid (List.mem_of_mem_head? hf')
  have h₁ := ho.left.2 _ hfirst
  have h₂ := ho.apart hfirst hfirst'
  have h₃ := ho.apart (List.mem_of_mem_getLast? hl) hlast'
  have h₄ := ho.right.2 _ hlast'
  simp only [Span.join, Span.mk.injEq]
  omega

theorem Node.AllPlaced.behind (h : Node.AllPlaced ns b) (a : List Token) :
    Node.AllPlaced ns (a ++ b) := by
  cases ns with
  | nil => trivial
  | cons n ns =>
    obtain ⟨before, own, after, rfl, hn, hns⟩ := h
    exact ⟨a ++ before, own, after, by rw [List.append_assoc], hn, hns⟩

theorem Node.AllPlaced.append (h : Node.AllPlaced ns a) (h' : Node.AllPlaced ms b) :
    Node.AllPlaced (ns ++ ms) (a ++ b) := by
  induction ns generalizing a with
  | nil => exact h'.behind a
  | cons n ns ih =>
    obtain ⟨before, own, after, rfl, hn, hns⟩ := h
    exact ⟨before, own, after ++ b, by simp only [List.append_assoc], hn, ih hns⟩

theorem Node.Placed.singleton (h : n.Placed ts) : Node.AllPlaced [n] ts :=
  ⟨[], ts, [], by simp, h, trivial⟩

end Placed

section Below

variable {ts own : List Token} {ns : List Node} {n m : Node}

mutual

theorem Node.Placed.of_mem_all : ∀ {n : Node} {ts : List Token}, n.Placed ts →
    ∀ m ∈ n.all, ∃ before own after, ts = before ++ (own ++ after) ∧ m.Placed own
  | .mk span words parts, ts, h, m, hm => by
    rw [Node.all, List.mem_cons] at hm
    rcases hm with rfl | hm
    · exact ⟨[], ts, [], by simp, h⟩
    · exact Node.AllPlaced.of_mem_listAll h.2.2 m hm

theorem Node.AllPlaced.of_mem_listAll : ∀ {ns : List Node} {ts : List Token},
    Node.AllPlaced ns ts →
      ∀ m ∈ Node.listAll ns, ∃ before own after, ts = before ++ (own ++ after) ∧ m.Placed own
  | [], _, _, m, hm => by simp [Node.listAll] at hm
  | n :: ns, _, ⟨before, own, after, rfl, hn, hns⟩, m, hm => by
    rw [Node.listAll, List.mem_append] at hm
    rcases hm with hm | hm
    · obtain ⟨before', own', after', rfl, hm⟩ := hn.of_mem_all m hm
      exact ⟨before ++ before', own', after' ++ after, by simp only [List.append_assoc], hm⟩
    · obtain ⟨before', own', after', rfl, hm⟩ := Node.AllPlaced.of_mem_listAll hns m hm
      exact ⟨before ++ (own ++ before'), own', after', by simp only [List.append_assoc], hm⟩

end

theorem Node.Placed.extends (h : n.Placed own) : Extends n.span own := by
  cases n
  exact h.2.1

theorem Node.AllPlaced.of_mem (h : Node.AllPlaced ns ts) (hm : m ∈ ns) :
    ∃ before own after, ts = before ++ (own ++ after) ∧ m.Placed own := by
  induction ns generalizing ts with
  | nil => cases hm
  | cons n ns ih =>
    obtain ⟨before, own, after, rfl, hn, hns⟩ := h
    rcases List.mem_cons.1 hm with rfl | hm
    · exact ⟨before, own, after, rfl, hn⟩
    · obtain ⟨before', own', after', rfl, hm⟩ := ih hns hm
      exact ⟨before ++ (own ++ before'), own', after', by simp only [List.append_assoc], hm⟩

theorem Node.AllPlaced.pairwise (h : Node.AllPlaced ns ts) (ho : InOrder ts) :
    ns.Pairwise fun n m ↦ n.span.stop ≤ m.span.start := by
  induction ns generalizing ts with
  | nil => exact .nil
  | cons n ns ih =>
    obtain ⟨before, own, after, rfl, hn, hns⟩ := h
    refine List.pairwise_cons.2 ⟨fun m hm ↦ ?_, ih hns ho.right.right⟩
    obtain ⟨before', own', after', rfl, hm⟩ := hns.of_mem hm
    obtain ⟨_, -, last, hl, hs⟩ := hn.extends
    obtain ⟨first, hf, _, -, hs'⟩ := hm.extends
    rw [hs, hs']
    refine ho.right.apart (List.mem_of_mem_getLast? hl) ?_
    exact List.mem_append_right _ (List.mem_append_left _ (List.mem_of_mem_head? hf))

theorem Node.Placed.inside (h : n.Placed own) (ho : InOrder own) (hm : m ∈ n.parts) :
    n.span.start ≤ m.span.start ∧ m.span.stop ≤ n.span.stop := by
  obtain ⟨span, words, parts⟩ := n
  obtain ⟨-, ⟨first, hf, last, hl, hs⟩, hparts⟩ := h
  obtain ⟨before, own', after, rfl, hm⟩ := hparts.of_mem hm
  obtain ⟨first', hf', last', hl', hs'⟩ := hm.extends
  have hown : ∀ t ∈ own', t ∈ before ++ (own' ++ after) := by
    intro t ht
    exact List.mem_append_right _ (List.mem_append_left _ ht)
  rw [show (Node.mk span words parts).span = span from rfl, hs, hs']
  exact ⟨ho.first_le hf (hown _ (List.mem_of_mem_head? hf')),
    ho.le_last hl (hown _ (List.mem_of_mem_getLast? hl'))⟩

end Below

end PZero.Surface
