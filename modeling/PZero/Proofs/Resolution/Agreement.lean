import Mathlib.Data.List.Forall2
import PZero.Proofs.IR.Names
import PZero.Proofs.Lowering.Program
import PZero.Proofs.Resolution.Accesses

namespace PZero.Lowering

open IR

/-- Where a declaration has its variable: at the address of the global that it became, or in the
slot with its number. -/
def place (ds : List Typed.Decl) (slots : List Register) : Referent → Option Operand
  | .global name =>
    (ds.find? (·.name = name)).bind fun d ↦ d.global?.map fun g ↦ .const g.ref
  | .local_ number => slots[number]?.map .reg

/-- Code does with the places of variables what is done with the variables. -/
structure Follows (ds : List Typed.Decl) (log : List (Access (Option Referent)))
    (code : List Instr) : Prop where
  distinct : ((slots code).map Register.name).Nodup
  accesses : (accesses code).map (Access.map some) =
    log.map (Access.map (·.bind (place ds (slots code))))

variable {ds : List Typed.Decl} {top : List Marked} {d d' : Nat} {m : Marks} {s s₁ s' : Site}

theorem slot_mono {before after : List Register} {n : Nat} {x : Operand}
    (h : before[n]?.map .reg = some x) (hp : before <+: after) : after[n]?.map .reg = some x := by
  obtain ⟨rest, rfl⟩ := hp
  obtain ⟨r, hr, rfl⟩ := Option.map_eq_some_iff.1 h
  have hlt := (List.getElem?_eq_some_iff.1 hr).1
  rw [List.getElem?_append_left hlt, hr, Option.map_some]

theorem place_mono {before after : List Register} {r : Referent} {x : Operand}
    (h : place ds before r = some x) (hp : before <+: after) : place ds after r = some x := by
  cases r with
  | global name => exact h
  | local_ number => exact slot_mono h hp

/-- An entry of a scope and the binding that lowering has for it. -/
def Bound (slots : List Register) (entry : Marked) (x : Bytes × Operand) : Prop :=
  x.1 = entry.1 ∧ ∃ n, entry.2.2 = .local_ n ∧ slots[n]?.map .reg = some x.2

theorem Bound.mono {before after : List Register} {entry : Marked} {x : Bytes × Operand}
    (h : Bound before entry x) (hp : before <+: after) : Bound after entry x := by
  obtain ⟨hn, n, he, hx⟩ := h
  exact ⟨hn, n, he, slot_mono hx hp⟩

theorem bound_lookup {slots : List Register} {entries : List Marked} {xs : List (Bytes × Operand)}
    (h : List.Forall₂ (Bound slots) entries xs) (name : Bytes) :
    entries.lookup name = none ∧ xs.lookup name = none ∨
      ∃ binding n a, entries.lookup name = some (binding, .local_ n) ∧ xs.lookup name = some a ∧
        slots[n]?.map .reg = some a := by
  induction h with
  | nil => exact .inl ⟨rfl, rfl⟩
  | @cons entry x entries xs hb _ ih =>
    obtain ⟨other, binding, referent⟩ := entry
    obtain ⟨name', a⟩ := x
    obtain ⟨hn, n, he, ha⟩ := hb
    simp only at hn he ha
    subst hn he
    rw [List.lookup_cons, List.lookup_cons]
    cases name == name' with
    | true => exact .inr ⟨binding, n, a, rfl, rfl, ha⟩
    | false => exact ih

/-- Slots are registers with different numbers below a limit. -/
structure Numbered (slots : List Register) (limit : Nat) : Prop where
  taken : ∀ r ∈ slots, ∃ k < limit, r.name = Bytes.ofNat k
  distinct : (slots.map Register.name).Nodup

namespace Numbered

variable {slots : List Register} {limit : Nat}

theorem mono {limit' : Nat} (h : Numbered slots limit) (hle : limit ≤ limit') :
    Numbered slots limit' := by
  refine ⟨fun r hr ↦ ?_, h.distinct⟩
  obtain ⟨k, hk, he⟩ := h.taken r hr
  exact ⟨k, by omega, he⟩

theorem snoc (h : Numbered slots limit) (type : Ty) :
    Numbered (slots ++ [⟨Bytes.ofNat limit, type⟩]) (limit + 1) := by
  constructor
  · intro r hr
    rcases List.mem_append.1 hr with hr | hr
    · exact (h.mono (Nat.le_succ limit)).taken r hr
    · exact ⟨limit, Nat.lt_succ_self limit, by rw [List.mem_singleton.1 hr]⟩
  · rw [List.map_append, List.nodup_append]
    refine ⟨h.distinct, List.nodup_singleton _, ?_⟩
    intro other ho new hn he
    obtain ⟨r, hr, rfl⟩ := List.mem_map.1 ho
    obtain ⟨k, hk, hk'⟩ := h.taken r hr
    rw [List.map_singleton, List.mem_singleton] at hn
    have := Bytes.ofNat_inj (hk'.symm.trans (he.trans hn))
    omega

end Numbered

/-- The marks of the checker and the site of lowering at one point of a function. The open scopes
correspond, `d` in number; what lowering has behind them is empty. -/
structure Agrees (ds : List Typed.Decl) (top : List Marked) (d : Nat) (m : Marks) (s : Site) :
    Prop where
  scopes : ∃ locals bound rest, m.scopes = locals ++ [top] ∧ locals.length = d ∧
    s.function.scopes = bound ++ rest ∧ rest.flatten = [] ∧
    List.Forall₂ (List.Forall₂ (Bound (slots s.function.body))) locals bound
  next : m.next = (slots s.function.body).length
  numbered : Numbered (slots s.function.body) s.function.nextRegister
  addresses : ∀ {name c}, s.module.address? name = some c →
    (top.lookup name).map Prod.snd = some (.global name) ∧
      place ds [] (.global name) = some (.const c)

/-- The code that comes between two sites does with the places of variables what is done with the
variables. Further slots may follow the ones that are set up. -/
def Site.Follows (ds : List Typed.Decl) (s s' : Site) (log : List (Access (Option Referent))) :
    Prop :=
  ∃ added, accesses s'.function.body = accesses s.function.body ++ added ∧
    ∀ all, slots s'.function.body <+: all →
      added.map (Access.map some) = log.map (Access.map (·.bind (place ds all)))

namespace Site.Follows

variable {log log' : List (Access (Option Referent))}

theorem of_accesses (h : accesses s'.function.body = accesses s.function.body) :
    s.Follows ds s' [] :=
  ⟨[], by rw [h, List.append_nil], fun _ _ ↦ rfl⟩

theorem slots_prefix (h : s.Follows ds s' log) :
    slots s.function.body <+: slots s'.function.body := by
  obtain ⟨added, ha, -⟩ := h
  rw [slots, slots, ha, List.filterMap_append]
  exact List.prefix_append _ _

theorem trans (h : s.Follows ds s₁ log) (h' : s₁.Follows ds s' log') :
    s.Follows ds s' (log ++ log') := by
  have hp := h'.slots_prefix
  obtain ⟨a, ha, hl⟩ := h
  obtain ⟨b, hb, hl'⟩ := h'
  refine ⟨a ++ b, by rw [hb, ha, List.append_assoc], fun all hall ↦ ?_⟩
  rw [List.map_append, List.map_append, hl all (hp.trans hall), hl' all hall]

end Site.Follows

namespace Agrees

theorem operand {name : Bytes} {a : Operand} (h : Agrees ds top d m s)
    (ha : s.function.operand name s.module = .ok a) :
    ∃ r, m.referent? name = some r ∧ place ds (slots s.function.body) r = some a := by
  obtain ⟨locals, bound, rest, hm, -, hs, hr, hb⟩ := h.scopes
  have hflat : List.Forall₂ (Bound (slots s.function.body)) locals.flatten bound.flatten :=
    List.rel_flatten hb
  have hlookup : m.lookup name = (locals.flatten.lookup name).or (top.lookup name) := by
    rw [Marks.lookup, Typing.findSome?_lookup, hm, List.flatten_append, List.lookup_append]
    simp
  have hscopes : s.function.scopes.findSome? (List.lookup name) = bound.flatten.lookup name := by
    rw [Typing.findSome?_lookup, hs, List.flatten_append, hr, List.append_nil]
  -- either no local scope has the name on both sides, or the first entries on both sides agree
  rcases bound_lookup hflat name with ⟨hl, hx⟩ | ⟨binding, n, x, hl, hx, hp⟩
  · rcases Lower.operand_ok.1 ha with hf | ⟨-, c, hc, rfl⟩
    · rw [hscopes, hx] at hf
      cases hf
    · obtain ⟨ht, hp⟩ := h.addresses hc
      refine ⟨.global name, ?_, hp⟩
      rw [Marks.referent?, hlookup, hl, Option.none_or]
      exact ht
  · rcases Lower.operand_ok.1 ha with hf | ⟨hf, -⟩
    · rw [hscopes, hx] at hf
      cases hf
      refine ⟨.local_ n, ?_, hp⟩
      rw [Marks.referent?, hlookup, hl]
      rfl
    · rw [hscopes, hx] at hf
      cases hf

theorem keep (h : Agrees ds top d m s) (hslots : slots s'.function.body = slots s.function.body)
    (hle : s.function.nextRegister ≤ s'.function.nextRegister)
    (hs : s'.function.scopes = s.function.scopes)
    (ha : s'.module.addresses = s.module.addresses) : Agrees ds top d m s' where
  scopes := by
    rw [hs, hslots]
    exact h.scopes
  next := by
    rw [hslots]
    exact h.next
  numbered := by
    rw [hslots]
    exact h.numbered.mono hle
  addresses hname := by
    rw [ModuleDraft.address?, ha] at hname
    exact h.addresses hname

theorem quiet (h : Agrees ds top d m s) (hq : s.Quiet s') :
    Agrees ds top d m s' ∧ s.Follows ds s' [] := by
  obtain ⟨code, hc, hn⟩ := hq.body
  have hslots : slots s'.function.body = slots s.function.body := by
    rw [hc, slots_append, slots_eq_nil hn, List.append_nil]
  have hacc : accesses s'.function.body = accesses s.function.body := by
    rw [hc, accesses_append, hn, List.append_nil]
  exact ⟨h.keep hslots hq.register_le hq.scopes hq.addresses, .of_accesses hacc⟩

theorem enter (h : Agrees ds top d m s) : Agrees ds top (d + 1) (m.step .enter) s.enter := by
  obtain ⟨locals, bound, rest, hm, hd, hs, hr, hb⟩ := h.scopes
  refine { h with scopes := ⟨[] :: locals, [] :: bound, rest, ?_, ?_, ?_, hr, .cons .nil hb⟩ }
  · exact congrArg ([] :: ·) hm
  · rw [List.length_cons, hd]
  · exact congrArg ([] :: ·) hs

theorem leave (h : Agrees ds top (d + 1) m s) : Agrees ds top d (m.step .leave) s.leave := by
  obtain ⟨locals, bound, rest, hm, hd, hs, hr, hb⟩ := h.scopes
  cases hb with
  | nil => cases hd
  | @cons entries xs locals bound _ hb =>
    refine { h with scopes := ⟨locals, bound, rest, ?_, by simpa using hd, ?_, hr, hb⟩ }
    · exact congrArg List.tail hm
    · exact congrArg List.tail hs

theorem declares (h : Agrees ds top (d + 1) m s) (name : Bytes) (binding : Typing.Binding)
    (type : Ty) (x : Operand) :
    Agrees ds top (d + 1) (m.step (.declares name binding)) (s.slot name type x) ∧
      s.Follows ds (s.slot name type x) (m.access (.declares name binding)) := by
  have hslots := slot_slots name type x s
  have hget : (slots s.function.body ++ [s.next (.ptr type)])[m.next]? =
      some (s.next (.ptr type)) := by
    rw [h.next, List.getElem?_concat_length]
  obtain ⟨locals, bound, rest, hm, hlen, hs, hr, hb⟩ := h.scopes
  cases hb with
  | nil => cases hlen
  | @cons entries xs locals bound hb hbs =>
    have hstep : m.step (.declares name binding) =
        ⟨((name, binding, .local_ m.next) :: entries) :: (locals ++ [top]), m.next + 1⟩ :=
      m.declare_cons name binding hm
    have hprefix : slots s.function.body <+: slots s.function.body ++ [s.next (.ptr type)] :=
      List.prefix_append _ _
    rw [hstep]
    have hscopes := slot_scopes name type x s hs
    refine ⟨⟨⟨_ :: locals, _ :: bound, rest, rfl, hlen, hscopes, hr, ?_⟩, ?_, ?_, h.addresses⟩, _,
      slot_accesses name type x s, ?_⟩
    · rw [hslots]
      refine .cons (.cons ⟨rfl, m.next, rfl, ?_⟩ (hb.imp fun _ _ hx ↦ hx.mono hprefix))
        (hbs.imp fun _ _ hx ↦ hx.imp fun _ _ hx ↦ hx.mono hprefix)
      rw [hget]
      rfl
    · rw [hslots, List.length_append, h.next]
      rfl
    · rw [hslots, slot_nextRegister]
      exact h.numbered.snoc (.ptr type)
    · intro all hall
      rw [hslots] at hall
      have hp : place ds all (.local_ m.next) = some (.reg (s.next (.ptr type))) :=
        place_mono (by rw [place, hget]; rfl) hall
      simp only [Marks.access, List.map_cons, List.map_nil, Access.map, Option.bind_some, hp]

theorem does {e : ScopeEvent} (h : Agrees ds top d m s) (hd : s.Does d e d' s') :
    Agrees ds top d' (m.step e) s' ∧ s.Follows ds s' (m.access e) := by
  cases hd with
  | enter => exact ⟨h.enter, .of_accesses rfl⟩
  | leave => exact ⟨h.leave, .of_accesses rfl⟩
  | declares d s name binding type x => exact h.declares name binding type x
  | @reads _ _ name a type ha =>
    obtain ⟨r, hr, hp⟩ := h.operand ha
    have hslots : slots (s.define type (.load · type a)).function.body = slots s.function.body :=
      (slots_append _ _).trans (List.append_nil _)
    refine ⟨h.keep hslots (Nat.le_succ _) rfl rfl, [.load a], accesses_append _ _, ?_⟩
    intro all hall
    rw [hslots] at hall
    simp only [Marks.access, List.map_cons, List.map_nil, Access.map, hr, Option.bind_some,
      place_mono hp hall]
  | @assigns _ _ name a x ha =>
    obtain ⟨r, hr, hp⟩ := h.operand ha
    have hslots : slots (s.emit (.store x a)).function.body = slots s.function.body :=
      (slots_append _ _).trans (List.append_nil _)
    refine ⟨h.keep hslots (Nat.le_refl _) rfl rfl, [.store a], accesses_append _ _, ?_⟩
    intro all hall
    rw [hslots] at hall
    simp only [Marks.access, List.map_cons, List.map_nil, Access.map, hr, Option.bind_some,
      place_mono hp hall]

theorem performs {es : List ScopeEvent} (h : Agrees ds top d m s) (hp : s.Performs d es d' s') :
    Agrees ds top d' (m.run es) s' ∧ s.Follows ds s' (m.accesses es) := by
  induction hp generalizing m with
  | quiet d hq => exact h.quiet hq
  | @does d d' s s' e hd =>
    rw [Marks.accesses, Marks.accesses, List.append_nil]
    exact h.does hd
  | trans _ _ ih ih' =>
    obtain ⟨h₁, hf⟩ := ih h
    obtain ⟨h₂, hf'⟩ := ih' h₁
    rw [Marks.run_append, Marks.accesses_append]
    exact ⟨h₂, hf.trans hf'⟩

end Agrees

end PZero.Lowering
