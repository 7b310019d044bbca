import PZero.Proofs.IR.Blocks

namespace PZero.IR

/-- A place in a body: the block, the registers that are defined on every way to it, and the number
of the next register. -/
structure Point where
  block : Bytes
  known : List Register
  next : Nat

/-- An instruction with the point that it stands at. -/
structure Step where
  instr : Instr
  point : Point

def Point.after (p : Point) (i : Instr) : Point :=
  match i.result? with
  | some r => ⟨p.block, r :: p.known, p.next + 1⟩
  | none => p

def Operand.KnownIn (known : List Register) : Operand → Prop
  | .reg r => r ∈ known
  | .const _ => True

theorem Operand.KnownIn.mono {known known' : List Register} {x : Operand} (h : x.KnownIn known)
    (hs : known ⊆ known') : x.KnownIn known' := by
  cases x with
  | reg r => exact hs h
  | const c => trivial

def Numbered (label : Bytes) : Prop := ∃ stem n, label = stem ++ 95 :: Bytes.ofNat n

def Instr.isPhi : Instr → Bool
  | .phi _ _ => true
  | _ => false

theorem Instr.isPhi_of_isTerminator {i : Instr} (h : i.isTerminator = true) : i.isPhi = false := by
  cases i <;> first | rfl | cases h

/-- An instruction that control goes through, and that reads what is known before it. -/
structure Plain (p : Point) (i : Instr) : Prop where
  label : i.isLabel = false
  terminator : i.isTerminator = false
  phi : i.isPhi = false
  result : ∀ r, i.result? = some r → r.name = Bytes.ofNat p.next
  operands : ∀ x ∈ i.operands, x.KnownIn p.known

def Point.fork (p : Point) (c : Operand) (yes no : Bytes) : List Step :=
  [⟨.condBr c yes no, p⟩, ⟨.label yes, ⟨yes, p.known, p.next⟩⟩]

def Point.goto (p : Point) (target next : Bytes) (known : List Register) : List Step :=
  [⟨.br target, p⟩, ⟨.label next, ⟨next, known, p.next⟩⟩]

def Point.arms (p : Point) (c : Operand) (yes no merge : Bytes) (a : List Step) (q : Point)
    (b : List Step) (r : Point) : List Step :=
  p.fork c yes no ++ (a ++ (q.goto merge no p.known ++ (b ++ r.goto merge merge p.known)))

/-- Code between two points. -/
inductive Structured : Point → List Step → Point → Prop
  | nil (p : Point) : Structured p [] p
  | plain {p : Point} {i : Instr} (h : Plain p i) : Structured p [⟨i, p⟩] (p.after i)
  | seq {p q r : Point} {a b : List Step} (ha : Structured p a q) (hb : Structured q b r) :
    Structured p (a ++ b) r
  | guarded {p q : Point} {c : Operand} {yes merge : Bytes} {a : List Step}
      (hc : c.KnownIn p.known) (hyes : Numbered yes) (hmerge : Numbered merge)
      (ha : Structured ⟨yes, p.known, p.next⟩ a q) :
    Structured p (p.fork c yes merge ++ (a ++ q.goto merge merge p.known))
      ⟨merge, p.known, q.next⟩
  | choice {p q r : Point} {c : Operand} {yes no merge : Bytes} {a b : List Step}
      (hc : c.KnownIn p.known) (hyes : Numbered yes) (hno : Numbered no) (hmerge : Numbered merge)
      (ha : Structured ⟨yes, p.known, p.next⟩ a q) (hb : Structured ⟨no, p.known, q.next⟩ b r) :
    Structured p (p.arms c yes no merge a q b r) ⟨merge, p.known, r.next⟩
  | select {p q r : Point} {c x y : Operand} {dst : Register} {yes no merge : Bytes}
      {a b : List Step} (hc : c.KnownIn p.known) (hyes : Numbered yes) (hno : Numbered no)
      (hmerge : Numbered merge) (ha : Structured ⟨yes, p.known, p.next⟩ a q)
      (hb : Structured ⟨no, p.known, q.next⟩ b r) (hx : x.KnownIn q.known) (hy : y.KnownIn r.known)
      (hdst : dst.name = Bytes.ofNat r.next) :
    Structured p
      (p.arms c yes no merge a q b r ++
        [⟨.phi dst [⟨x, q.block⟩, ⟨y, r.block⟩], ⟨merge, p.known, r.next⟩⟩])
      ⟨merge, dst :: p.known, r.next + 1⟩
  | loop {p q r : Point} {c : Operand} {head body merge : Bytes} {a b : List Step}
      (hhead : Numbered head) (ha : Structured ⟨head, p.known, p.next⟩ a q)
      (hc : c.KnownIn q.known) (hbody : Numbered body) (hmerge : Numbered merge)
      (hb : Structured ⟨body, q.known, q.next⟩ b r) :
    Structured p
      (p.goto head head p.known ++ (a ++ (q.fork c body merge ++ (b ++
        r.goto head merge q.known))))
      ⟨merge, q.known, r.next⟩

abbrev code (steps : List Step) : List Instr := steps.map Step.instr

theorem code_append (a b : List Step) : code (a ++ b) = code a ++ code b := List.map_append

/-- Code from a point to the end of a function. A block that a phi starts has it in front, and what
is known at the start of a block was known at the end of the block before it. -/
inductive Whole : Point → List Step → Prop
  | last {p : Point} {i : Instr} (ht : i.isTerminator = true)
      (hx : ∀ x ∈ i.operands, x.KnownIn p.known) : Whole p [⟨i, p⟩]
  | plain {p : Point} {i : Instr} {rest : List Step} (h : Plain p i)
      (hr : Whole (p.after i) rest) : Whole p (⟨i, p⟩ :: rest)
  | jump {p : Point} {i : Instr} {label : Bytes} {known : List Register} {rest : List Step}
      (ht : i.isTerminator = true) (hx : ∀ x ∈ i.operands, x.KnownIn p.known)
      (hl : Numbered label) (hk : known ⊆ p.known) (hr : Whole ⟨label, known, p.next⟩ rest) :
    Whole p (⟨i, p⟩ :: ⟨.label label, ⟨label, known, p.next⟩⟩ :: rest)
  | merge {p : Point} {i : Instr} {label : Bytes} {known : List Register} {rest : List Step}
      {dst : Register} {incoming : List Incoming} (ht : i.isTerminator = true)
      (hx : ∀ x ∈ i.operands, x.KnownIn p.known) (hl : Numbered label) (hk : known ⊆ p.known)
      (hdst : dst.name = Bytes.ofNat p.next)
      (hr : Whole ⟨label, dst :: known, p.next + 1⟩ rest) :
    Whole p (⟨i, p⟩ :: ⟨.label label, ⟨label, known, p.next⟩⟩ ::
      ⟨.phi dst incoming, ⟨label, known, p.next⟩⟩ :: rest)

/-- A label that is placed among the steps, where no more is known than here. -/
def Entered (steps : List Step) (label : Bytes) (known : List Register) : Prop :=
  ∃ s ∈ steps, s.instr = .label label ∧ s.point.known ⊆ known

/-- Every branch goes to a label of some steps. -/
def Jumps (a steps : List Step) : Prop :=
  ∀ s ∈ a, ∀ t ∈ s.instr.targets, Entered steps t s.point.known

theorem Entered.mono {steps steps' : List Step} {label : Bytes} {known known' : List Register}
    (h : Entered steps label known) (hs : steps ⊆ steps') (hk : known ⊆ known') :
    Entered steps' label known' := by
  obtain ⟨s, hs', hi, hn⟩ := h
  exact ⟨s, hs hs', hi, fun _ h ↦ hk (hn h)⟩

theorem Entered.label_mem {steps : List Step} {label : Bytes} {known : List Register}
    (h : Entered steps label known) : label ∈ labels (code steps) := by
  obtain ⟨s, hs, hi, -⟩ := h
  refine List.mem_filterMap.2 ⟨s.instr, List.mem_map_of_mem hs, ?_⟩
  rw [hi]

theorem Jumps.mono {a steps steps' : List Step} (h : Jumps a steps) (hs : steps ⊆ steps') :
    Jumps a steps' := fun s ha t ht ↦ (h s ha t ht).mono hs fun _ h ↦ h

theorem jumps_append {a b steps : List Step} :
    Jumps (a ++ b) steps ↔ Jumps a steps ∧ Jumps b steps := List.forall_mem_append

theorem jumps_fork {p : Point} {c : Operand} {yes no : Bytes} {steps : List Step}
    (hy : Entered steps yes p.known) (hn : Entered steps no p.known) :
    Jumps (p.fork c yes no) steps := by
  simp only [Jumps, Point.fork, List.forall_mem_cons, Instr.targets, List.not_mem_nil,
    false_imp_iff, implies_true, and_true]
  exact ⟨hy, hn⟩

theorem jumps_goto {p : Point} {target next : Bytes} {known : List Register} {steps : List Step}
    (ht : Entered steps target p.known) : Jumps (p.goto target next known) steps := by
  simp only [Jumps, Point.goto, List.forall_mem_cons, Instr.targets, List.not_mem_nil,
    false_imp_iff, implies_true, and_true]
  exact ht

theorem entered_fork (p : Point) (c : Operand) (yes no : Bytes) :
    Entered (p.fork c yes no) yes p.known :=
  ⟨_, List.mem_cons_of_mem _ List.mem_cons_self, rfl, fun _ h ↦ h⟩

theorem entered_goto (p : Point) (target next : Bytes) (known : List Register) :
    Entered (p.goto target next known) next known :=
  ⟨_, List.mem_cons_of_mem _ List.mem_cons_self, rfl, fun _ h ↦ h⟩

theorem jumps_arms {p q r : Point} {c : Operand} {yes no merge : Bytes} {a b : List Step}
    (ha : Jumps a a) (hb : Jumps b b) (hq : p.known ⊆ q.known) (hr : p.known ⊆ r.known) :
    Jumps (p.arms c yes no merge a q b r) (p.arms c yes no merge a q b r) := by
  have hn := entered_goto q merge no p.known
  have hm := entered_goto r merge merge p.known
  unfold Point.arms
  simp only [jumps_append]
  refine ⟨jumps_fork ((entered_fork p c yes no).mono ?_ ?_) (hn.mono ?_ ?_), ha.mono ?_,
    jumps_goto (hm.mono ?_ hq), hb.mono ?_, jumps_goto (hm.mono ?_ hr)⟩ <;> intro s hs <;> simp [hs]

theorem labels_code_append (a b : List Step) :
    labels (code (a ++ b)) = labels (code a) ++ labels (code b) := by
  rw [code_append, labels_append]

theorem labels_fork (p : Point) (c : Operand) (yes no : Bytes) :
    labels (code (p.fork c yes no)) = [yes] := rfl

theorem labels_goto (p : Point) (target next : Bytes) (known : List Register) :
    labels (code (p.goto target next known)) = [next] := rfl

namespace Structured

variable {p q : Point} {a : List Step}

theorem known_subset (h : Structured p a q) : p.known ⊆ q.known := by
  induction h with
  | nil p => exact fun _ h ↦ h
  | @plain p i h =>
    unfold Point.after
    split
    · exact List.subset_cons_self _ _
    · exact fun _ h ↦ h
  | seq _ _ iha ihb => exact fun _ h ↦ ihb (iha h)
  | guarded | choice => exact fun _ h ↦ h
  | select => exact List.subset_cons_self _ _
  | loop _ _ _ _ _ _ iha _ => exact iha

theorem whole (h : Structured p a q) : ∀ {b : List Step}, Whole q b → Whole p (a ++ b) := by
  induction h with
  | nil p => exact fun hb ↦ hb
  | plain h => exact fun hb ↦ .plain h hb
  | seq _ _ iha ihb =>
    intro b hb
    rw [List.append_assoc]
    exact iha (ihb hb)
  | guarded hc hyes hmerge ha iha =>
    intro b hb
    simp only [Point.fork, Point.goto, List.append_assoc, List.cons_append, List.nil_append]
    refine .jump rfl (by simpa using hc) hyes (fun _ h ↦ h) (iha ?_)
    exact .jump rfl (by simp) hmerge ha.known_subset hb
  | choice hc hyes hno hmerge ha hb iha ihb =>
    intro b hb'
    simp only [Point.arms, Point.fork, Point.goto, List.append_assoc, List.cons_append,
      List.nil_append]
    refine .jump rfl (by simpa using hc) hyes (fun _ h ↦ h) (iha ?_)
    refine .jump rfl (by simp) hno ha.known_subset (ihb ?_)
    exact .jump rfl (by simp) hmerge hb.known_subset hb'
  | select hc hyes hno hmerge ha hb hx hy hdst iha ihb =>
    intro b hb'
    simp only [Point.arms, Point.fork, Point.goto, List.append_assoc, List.cons_append,
      List.nil_append]
    refine .jump rfl (by simpa using hc) hyes (fun _ h ↦ h) (iha ?_)
    refine .jump rfl (by simp) hno ha.known_subset (ihb ?_)
    exact .merge rfl (by simp) hmerge hb.known_subset hdst hb'
  | loop hhead ha hc hbody hmerge hb iha ihb =>
    intro b hb'
    simp only [Point.fork, Point.goto, List.append_assoc, List.cons_append, List.nil_append]
    refine .jump rfl (by simp) hhead (fun _ h ↦ h) (iha ?_)
    refine .jump rfl (by simpa using hc) hbody (fun _ h ↦ h) (ihb ?_)
    exact .jump rfl (by simp) hmerge hb.known_subset hb'

theorem jumps (h : Structured p a q) : Jumps a a := by
  induction h with
  | nil p => simp [Jumps]
  | @plain p i h =>
    have ht : i.targets = [] := by
      cases i <;> first | rfl | exact nomatch h.terminator
    simp [Jumps, ht]
  | seq _ _ iha ihb =>
    exact jumps_append.2 ⟨iha.mono (List.subset_append_left _ _),
      ihb.mono (List.subset_append_right _ _)⟩
  | @guarded p q c yes merge a hc hyes hmerge ha iha =>
    have hm := entered_goto q merge merge p.known
    simp only [jumps_append]
    refine ⟨jumps_fork ((entered_fork p c yes merge).mono ?_ ?_) (hm.mono ?_ ?_), iha.mono ?_,
      jumps_goto (hm.mono ?_ ha.known_subset)⟩ <;> intro s hs <;> simp [hs]
  | choice _ _ _ _ ha hb iha ihb =>
    exact jumps_arms iha ihb ha.known_subset hb.known_subset
  | @select p q r c x y dst yes no merge a b hc hyes hno hmerge ha hb hx hy hdst iha ihb =>
    refine jumps_append.2 ⟨?_, by simp [Jumps, Instr.targets]⟩
    refine Jumps.mono ?_ (List.subset_append_left _ _)
    exact jumps_arms iha ihb ha.known_subset hb.known_subset
  | @loop p q r c head body merge a b hhead ha hc hbody hmerge hb iha ihb =>
    have hh := entered_goto p head head p.known
    have hm := entered_goto r head merge q.known
    have hpr : p.known ⊆ r.known := fun _ h ↦ hb.known_subset (ha.known_subset h)
    simp only [jumps_append]
    refine ⟨jumps_goto (hh.mono ?_ ?_), iha.mono ?_,
      jumps_fork ((entered_fork q c body merge).mono ?_ ?_) (hm.mono ?_ ?_), ihb.mono ?_,
      jumps_goto (hh.mono ?_ hpr)⟩ <;> intro s hs <;> simp [hs]

theorem block_mem (h : Structured p a q) : q.block ∈ p.block :: labels (code a) := by
  induction h with
  | nil p => exact List.mem_cons_self
  | @plain p i h =>
    unfold Point.after
    split <;> exact List.mem_cons_self
  | @seq p q r a b _ _ iha ihb =>
    simp only [code, List.map_append, labels_append, List.mem_cons, List.mem_append] at iha ihb ⊢
    rcases ihb with ihb | ihb
    · rw [ihb]
      tauto
    · tauto
  | guarded | choice | select | loop =>
    simp [Point.arms, labels_fork, labels_goto]

end Structured

/-- The points from which steps branch to a label. -/
def sources (label : Bytes) (steps : List Step) : List Point :=
  (steps.filter fun s ↦ label ∈ s.instr.targets).map Step.point

section Sources

variable {label : Bytes} {a b : List Step} {p q : Point}

@[simp] theorem sources_append : sources label (a ++ b) = sources label a ++ sources label b := by
  simp [sources]

theorem mem_sources : p ∈ sources label a ↔ ∃ i, ⟨i, p⟩ ∈ a ∧ label ∈ i.targets := by
  simp only [sources, List.mem_map, List.mem_filter, decide_eq_true_eq]
  constructor
  · rintro ⟨⟨i, _⟩, ⟨hs, ht⟩, rfl⟩
    exact ⟨i, hs, ht⟩
  · rintro ⟨i, hs, ht⟩
    exact ⟨⟨i, p⟩, ⟨hs, ht⟩, rfl⟩

theorem sources_fork {c : Operand} {yes no : Bytes} (hy : label ≠ yes) (hn : label ≠ no) :
    sources label (p.fork c yes no) = [] := by
  simp [sources, Point.fork, Instr.targets, hy, hn]

theorem sources_goto {target next : Bytes} {known : List Register} (h : label ≠ target) :
    sources label (p.goto target next known) = [] := by
  simp [sources, Point.goto, Instr.targets, h]

theorem sources_goto_self {next : Bytes} {known : List Register} :
    sources label (p.goto label next known) = [p] := by
  simp [sources, Point.goto, Instr.targets]

theorem Structured.sources_eq_nil (h : Structured p a q) (hl : label ∉ labels (code a)) :
    sources label a = [] := by
  rw [List.eq_nil_iff_forall_not_mem]
  intro r hr
  obtain ⟨i, hi, ht⟩ := mem_sources.1 hr
  exact hl (h.jumps _ hi _ ht).label_mem

end Sources

/-- A phi has a value for every branch to its block, which is known there, and for no other. -/
structure PhiFits (steps : List Step) (block : Bytes) (incoming : List Incoming) : Prop where
  placed : block ∈ labels (code steps)
  nodup : (incoming.map Incoming.label).Nodup
  branches : List.Forall₂ (fun i r ↦ i.label = r.block ∧ i.value.KnownIn r.known) incoming
    (sources block steps)

theorem PhiFits.frame {before b after steps : List Step} {block : Bytes}
    {incoming : List Incoming} (h : PhiFits b block incoming)
    (he : steps = before ++ (b ++ after)) (hb : sources block before = [])
    (ha : sources block after = []) : PhiFits steps block incoming := by
  subst he
  refine ⟨by simp [h.placed], h.nodup, ?_⟩
  rw [sources_append, sources_append, hb, ha, List.nil_append, List.append_nil]
  exact h.branches

/-- Every phi of some steps fits the branches of other steps. -/
def PhisFit (a steps : List Step) : Prop :=
  ∀ s ∈ a, ∀ dst incoming, s.instr = .phi dst incoming → PhiFits steps s.point.block incoming

theorem phisFit_append {a b steps : List Step} :
    PhisFit (a ++ b) steps ↔ PhisFit a steps ∧ PhisFit b steps := List.forall_mem_append

theorem phisFit_fork {p : Point} {c : Operand} {yes no : Bytes} {steps : List Step} :
    PhisFit (p.fork c yes no) steps := by
  intro s hs dst incoming hi
  simp only [Point.fork, List.mem_cons, List.not_mem_nil, or_false] at hs
  rcases hs with rfl | rfl <;> cases hi

theorem phisFit_goto {p : Point} {target next : Bytes} {known : List Register}
    {steps : List Step} : PhisFit (p.goto target next known) steps := by
  intro s hs dst incoming hi
  simp only [Point.goto, List.mem_cons, List.not_mem_nil, or_false] at hs
  rcases hs with rfl | rfl <;> cases hi

theorem PhisFit.frame {before a after steps : List Step} (h : PhisFit a a)
    (he : steps = before ++ (a ++ after))
    (hs : ∀ t ∈ labels (code a), sources t before = [] ∧ sources t after = []) :
    PhisFit a steps := by
  intro s hsa dst incoming hi
  have hf := h s hsa dst incoming hi
  obtain ⟨hb, ha⟩ := hs _ hf.placed
  exact hf.frame he hb ha

/-- The labels of a piece with two inner pieces, told apart. -/
structure LabelsApart (x y z : Bytes) (la lb : List Bytes) : Prop where
  nodup_left : la.Nodup
  nodup_right : lb.Nodup
  left : ∀ t ∈ la, t ≠ x ∧ t ≠ y ∧ t ≠ z ∧ t ∉ lb
  right : ∀ t ∈ lb, t ≠ x ∧ t ≠ y ∧ t ≠ z ∧ t ∉ la
  outer : x ≠ y ∧ x ≠ z ∧ y ≠ z

theorem labelsApart {x y z : Bytes} {la lb : List Bytes}
    (h : ([x] ++ (la ++ ([y] ++ (lb ++ [z])))).Nodup) : LabelsApart x y z la lb := by
  simp only [List.nodup_append, List.mem_append, List.mem_singleton, List.nodup_singleton] at h
  obtain ⟨-, ⟨hla, ⟨-, ⟨hlb, -, hbz⟩, hy⟩, ha⟩, hx⟩ := h
  refine ⟨hla, hlb, fun t ht ↦ ⟨?_, ?_, ?_, ?_⟩, fun t ht ↦ ⟨?_, ?_, ?_, ?_⟩, ?_, ?_, ?_⟩
  · exact (hx x rfl t (.inl ht)).symm
  · exact ha t ht y (.inl rfl)
  · exact ha t ht z (.inr (.inr rfl))
  · exact fun h ↦ ha t ht t (.inr (.inl h)) rfl
  · exact (hx x rfl t (.inr (.inr (.inl ht)))).symm
  · exact (hy y rfl t (.inl ht)).symm
  · exact hbz t ht z rfl
  · exact fun h ↦ ha t h t (.inr (.inl ht)) rfl
  · exact hx x rfl y (.inr (.inl rfl))
  · exact hx x rfl z (.inr (.inr (.inr rfl)))
  · exact hy y rfl z (.inr rfl)

theorem LabelsApart.ends {x y z : Bytes} {la lb : List Bytes} (h : LabelsApart x y z la lb)
    {s t : Bytes} (hs : s ∈ x :: la) (ht : t ∈ y :: lb) : s ≠ t := by
  rintro rfl
  rcases List.mem_cons.1 hs with rfl | hs <;> rcases List.mem_cons.1 ht with rfl | ht
  · exact h.outer.1 rfl
  · exact (h.right _ ht).1 rfl
  · exact (h.left _ hs).2.1 rfl
  · exact (h.left _ hs).2.2.2 ht

namespace Structured

variable {p q : Point} {a : List Step}

theorem phisFit_arms {p q r : Point} {c : Operand} {yes no merge : Bytes} {a b : List Step}
    (ha : Structured ⟨yes, p.known, p.next⟩ a q) (hb : Structured ⟨no, p.known, q.next⟩ b r)
    (iha : (labels (code a)).Nodup → PhisFit a a) (ihb : (labels (code b)).Nodup → PhisFit b b)
    (hl : LabelsApart yes no merge (labels (code a)) (labels (code b))) :
    PhisFit (p.arms c yes no merge a q b r) (p.arms c yes no merge a q b r) := by
  have he : p.arms c yes no merge a q b r =
      (p.fork c yes no ++ (a ++ q.goto merge no p.known)) ++
        (b ++ r.goto merge merge p.known) := by simp only [Point.arms, List.append_assoc]
  refine phisFit_append.2 ⟨phisFit_fork, phisFit_append.2 ⟨(iha hl.nodup_left).frame rfl ?_,
    phisFit_append.2 ⟨phisFit_goto, phisFit_append.2 ⟨(ihb hl.nodup_right).frame he ?_,
      phisFit_goto⟩⟩⟩⟩
  · intro t ht
    obtain ⟨hy, hn, hm, hnb⟩ := hl.left t ht
    exact ⟨sources_fork hy hn, by simp [sources_goto hm, hb.sources_eq_nil hnb]⟩
  · intro t ht
    obtain ⟨hy, hn, hm, hna⟩ := hl.right t ht
    exact ⟨by simp [sources_fork hy hn, ha.sources_eq_nil hna, sources_goto hm], sources_goto hm⟩

/-- Where the labels are distinct, no code branches into a piece from outside, so a phi has to deal
with its own piece only. -/
theorem phisFit (h : Structured p a q) (hn : (labels (code a)).Nodup) : PhisFit a a := by
  induction h with
  | nil p => simp [PhisFit]
  | @plain p i h =>
    intro s hs dst incoming hi
    rw [List.mem_singleton.1 hs] at hi
    have := h.phi
    rw [show i = .phi dst incoming from hi] at this
    cases this
  | @seq p q r a b ha hb iha ihb =>
    rw [labels_code_append, List.nodup_append] at hn
    obtain ⟨hna, hnb, hab⟩ := hn
    refine phisFit_append.2 ⟨(iha hna).frame (List.nil_append _).symm fun t ht ↦ ⟨rfl, ?_⟩,
      (ihb hnb).frame (show a ++ b = a ++ (b ++ []) by simp) fun t ht ↦ ⟨?_, rfl⟩⟩
    · exact hb.sources_eq_nil fun h ↦ hab t ht t h rfl
    · exact ha.sources_eq_nil fun h ↦ hab t h t ht rfl
  | @guarded p q c yes merge a hc hyes hmerge ha iha =>
    simp only [labels_code_append, labels_fork, labels_goto, List.nodup_append, List.mem_append,
      List.mem_singleton] at hn
    obtain ⟨-, ⟨hna, -, hm⟩, hy⟩ := hn
    refine phisFit_append.2 ⟨phisFit_fork, phisFit_append.2 ⟨(iha hna).frame rfl ?_,
      phisFit_goto⟩⟩
    intro t ht
    have htm : t ≠ merge := hm t ht merge rfl
    exact ⟨sources_fork (hy yes rfl t (.inl ht)).symm htm, sources_goto htm⟩
  | choice _ _ _ _ ha hb iha ihb =>
    exact phisFit_arms ha hb iha ihb (labelsApart (by
      simpa only [Point.arms, labels_code_append, labels_fork, labels_goto] using hn))
  | @select p q r c x y dst yes no merge a b hc hyes hno hmerge ha hb hx hy hdst iha ihb =>
    rw [labels_code_append, List.nodup_append] at hn
    have hl := labelsApart (by simpa only [Point.arms, labels_code_append, labels_fork,
      labels_goto] using hn.1)
    refine phisFit_append.2 ⟨(phisFit_arms ha hb iha ihb hl).frame (List.nil_append _).symm
      fun t _ ↦ ⟨rfl, by simp [sources, Instr.targets]⟩, ?_⟩
    intro s hs dst' incoming hi
    rw [List.mem_singleton.1 hs] at hi ⊢
    cases hi
    refine ⟨by simp [Point.arms, labels_fork, labels_goto], ?_, ?_⟩
    · have hne := hl.ends ha.block_mem hb.block_mem
      simpa using hne
    · obtain ⟨hxz, hyz⟩ := hl.outer.2
      have hsources : sources merge (p.arms c yes no merge a q b r) = [q, r] := by
        simp only [Point.arms, sources_append, sources_goto_self]
        rw [sources_fork hxz.symm hyz.symm, ha.sources_eq_nil fun h ↦ (hl.left _ h).2.2.1 rfl,
          hb.sources_eq_nil fun h ↦ (hl.right _ h).2.2.1 rfl]
        rfl
      rw [sources_append, hsources]
      exact .cons ⟨rfl, hx⟩ (.cons ⟨rfl, hy⟩ (by simp [sources, Instr.targets]))
  | @loop p q r c head body merge a b hhead ha hc hbody hmerge hb iha ihb =>
    simp only [labels_code_append, labels_fork, labels_goto] at hn
    have hl := labelsApart hn
    have he : p.goto head head p.known ++ (a ++ (q.fork c body merge ++ (b ++
        r.goto head merge q.known))) = (p.goto head head p.known ++ (a ++ q.fork c body merge)) ++
        (b ++ r.goto head merge q.known) := by simp only [List.append_assoc]
    refine phisFit_append.2 ⟨phisFit_goto, phisFit_append.2 ⟨(iha hl.nodup_left).frame rfl ?_,
      phisFit_append.2 ⟨phisFit_fork, phisFit_append.2 ⟨(ihb hl.nodup_right).frame he ?_,
        phisFit_goto⟩⟩⟩⟩
    · intro t ht
      obtain ⟨hh, hbody, hm, hnb⟩ := hl.left t ht
      exact ⟨sources_goto hh,
        by simp [sources_fork hbody hm, hb.sources_eq_nil hnb, sources_goto hh]⟩
    · intro t ht
      obtain ⟨hh, hbody, hm, hna⟩ := hl.right t ht
      exact ⟨by simp [sources_goto hh, ha.sources_eq_nil hna, sources_fork hbody hm],
        sources_goto hh⟩

end Structured

namespace Whole

variable {p : Point} {a : List Step}

theorem after_block (p : Point) (i : Instr) : (p.after i).block = p.block := by
  unfold Point.after
  split <;> rfl

theorem placed_eq (h : Whole p a) :
    placed p.block (code a) = a.map fun s ↦ (s.point.block, s.instr) := by
  induction h with
  | last ht hx => exact placed_other (Instr.isLabel_of_isTerminator ht) _ _
  | plain h hr ih =>
    rw [after_block] at ih
    rw [List.map_cons, ← ih]
    exact placed_other h.label _ _
  | jump ht hx hl hk hr ih =>
    rw [List.map_cons, List.map_cons, ← ih]
    exact placed_other (Instr.isLabel_of_isTerminator ht) _ _
  | merge ht hx hl hk hdst hr ih =>
    rw [List.map_cons, List.map_cons, List.map_cons, ← ih]
    exact placed_other (Instr.isLabel_of_isTerminator ht) _ _

theorem endsOnce (h : Whole p a) :
    EndsOnce (cut (code a)).1 ∧ ∀ b ∈ (cut (code a)).2, EndsOnce b.code := by
  induction h with
  | @last p i ht hx =>
    have hc : cut (code [⟨i, p⟩]) = ([i], []) := cut_other (Instr.isLabel_of_isTerminator ht) []
    rw [hc]
    exact ⟨endsOnce_singleton ht, by simp⟩
  | @plain p i rest h hr ih =>
    have hc : cut (code (⟨i, p⟩ :: rest)) = (i :: (cut (code rest)).1, (cut (code rest)).2) :=
      cut_other h.label (code rest)
    rw [hc]
    exact ⟨ih.1.cons h.terminator, ih.2⟩
  | @jump p i label known rest ht hx hl hk hr ih =>
    have hc : cut (code (⟨i, p⟩ :: ⟨.label label, ⟨label, known, p.next⟩⟩ :: rest)) =
        ([i], ⟨label, (cut (code rest)).1⟩ :: (cut (code rest)).2) :=
      cut_other (Instr.isLabel_of_isTerminator ht) (.label label :: code rest)
    rw [hc]
    exact ⟨endsOnce_singleton ht, List.forall_mem_cons.2 ih⟩
  | @merge p i label known rest dst incoming ht hx hl hk hdst hr ih =>
    have hc : cut (code (⟨i, p⟩ :: ⟨.label label, ⟨label, known, p.next⟩⟩ ::
          ⟨.phi dst incoming, ⟨label, known, p.next⟩⟩ :: rest)) =
        ([i], ⟨label, .phi dst incoming :: (cut (code rest)).1⟩ :: (cut (code rest)).2) :=
      cut_other (Instr.isLabel_of_isTerminator ht) (.label label :: .phi dst incoming :: code rest)
    rw [hc]
    exact ⟨endsOnce_singleton ht, List.forall_mem_cons.2 ⟨ih.1.cons rfl, ih.2⟩⟩

theorem numbered (h : Whole p a) : (defined (code a)).map Register.name =
    (List.range' p.next (defined (code a)).length).map Bytes.ofNat := by
  induction h with
  | last ht hx =>
    rw [code, List.map_singleton, defined_cons, Instr.result?_of_isTerminator ht]
    rfl
  | @plain p i rest h hr ih =>
    rw [code, List.map_cons, defined_cons]
    cases hi : i.result? with
    | none =>
      rw [Point.after, hi] at ih
      exact ih
    | some r =>
      rw [Point.after, hi] at ih
      simp only [Option.toList_some, List.singleton_append, List.map_cons, List.length_cons,
        List.range'_succ, h.result r hi, ih]
  | jump ht hx hl hk hr ih =>
    rw [code, List.map_cons, defined_cons, Instr.result?_of_isTerminator ht]
    exact ih
  | @merge p i label known rest dst incoming ht hx hl hk hdst hr ih =>
    have hd : defined (code (⟨i, p⟩ :: ⟨.label label, ⟨label, known, p.next⟩⟩ ::
        ⟨.phi dst incoming, ⟨label, known, p.next⟩⟩ :: rest)) = dst :: defined (code rest) := by
      rw [code, List.map_cons, defined_cons, Instr.result?_of_isTerminator ht]
      rfl
    rw [hd, List.map_cons, List.length_cons, List.range'_succ, List.map_cons, hdst, ih]

theorem labels_numbered (h : Whole p a) : ∀ l ∈ labels (code a), Numbered l := by
  induction h with
  | last ht hx =>
    rw [code, List.map_singleton, labels_other (Instr.isLabel_of_isTerminator ht)]
    simp
  | plain h hr ih =>
    rw [code, List.map_cons, labels_other h.label]
    exact ih
  | jump ht hx hl hk hr ih =>
    rw [code, List.map_cons, labels_other (Instr.isLabel_of_isTerminator ht)]
    exact List.forall_mem_cons.2 ⟨hl, ih⟩
  | merge ht hx hl hk hdst hr ih =>
    rw [code, List.map_cons, labels_other (Instr.isLabel_of_isTerminator ht)]
    exact List.forall_mem_cons.2 ⟨hl, ih⟩

theorem operands_known (h : Whole p a) :
    ∀ s ∈ a, ∀ x ∈ s.instr.operands, x.KnownIn s.point.known := by
  induction h with
  | last ht hx => exact List.forall_mem_singleton.2 hx
  | plain h hr ih => exact List.forall_mem_cons.2 ⟨h.operands, ih⟩
  | jump ht hx hl hk hr ih =>
    exact List.forall_mem_cons.2 ⟨hx, List.forall_mem_cons.2 ⟨by simp, ih⟩⟩
  | merge ht hx hl hk hdst hr ih =>
    refine List.forall_mem_cons.2 ⟨hx, List.forall_mem_cons.2 ⟨by simp, ?_⟩⟩
    exact List.forall_mem_cons.2 ⟨by simp, ih⟩

theorem known_defined (h : Whole p a) :
    ∀ s ∈ a, ∀ r ∈ s.point.known, r ∈ p.known ∨ r ∈ defined (code a) := by
  induction h with
  | last ht hx => exact List.forall_mem_singleton.2 fun r hr ↦ .inl hr
  | @plain p i rest h hr ih =>
    refine List.forall_mem_cons.2 ⟨fun r hr ↦ .inl hr, fun s hs r hr ↦ ?_⟩
    rw [code, List.map_cons, defined_cons, List.mem_append]
    rcases ih s hs r hr with hk | hd
    · unfold Point.after at hk
      split at hk
      · rename_i r' hi
        rw [hi, Option.toList_some, List.mem_singleton]
        rcases List.mem_cons.1 hk with rfl | hk
        · exact .inr (.inl rfl)
        · exact .inl hk
      · exact .inl hk
    · exact .inr (.inr hd)
  | @jump p i label known rest ht hx hl hk hr ih =>
    refine List.forall_mem_cons.2 ⟨fun r hr ↦ .inl hr,
      List.forall_mem_cons.2 ⟨fun r hr ↦ .inl (hk hr), fun s hs r hr ↦ ?_⟩⟩
    rw [code, List.map_cons, List.map_cons, defined_cons, defined_cons]
    rcases ih s hs r hr with h | h
    · exact .inl (hk h)
    · exact .inr (by simp [h])
  | @merge p i label known rest dst incoming ht hx hl hk hdst hr ih =>
    refine List.forall_mem_cons.2 ⟨fun r hr ↦ .inl hr, List.forall_mem_cons.2
      ⟨fun r hr ↦ .inl (hk hr), List.forall_mem_cons.2 ⟨fun r hr ↦ .inl (hk hr), ?_⟩⟩⟩
    intro s hs r hr
    simp only [code, List.map_cons, defined_cons, List.mem_append]
    rcases ih s hs r hr with h | h
    · rcases List.mem_cons.1 h with rfl | h
      · exact .inr (by simp [Instr.result?])
      · exact .inl (hk h)
    · exact .inr (by simp [h])

theorem head (h : Whole p a) : ∃ i rest, a = ⟨i, p⟩ :: rest := by
  cases h <;> exact ⟨_, _, rfl⟩

theorem next_known (h : Whole p a) {k : Nat} {s : Step} (hs : a[k]? = some s)
    (hi : s.instr.isTerminator = false) :
    ∃ t, a[k + 1]? = some t ∧ t.point.known ⊆ s.instr.result?.toList ++ s.point.known := by
  induction h generalizing k with
  | @last p i ht hx =>
    cases k with
    | zero =>
      cases hs
      rw [ht] at hi
      cases hi
    | succ k => simp at hs
  | @plain p i rest h hr ih =>
    cases k with
    | zero =>
      cases hs
      obtain ⟨j, rest', rfl⟩ := hr.head
      refine ⟨_, rfl, ?_⟩
      unfold Point.after
      split
      · rename_i r hres
        simp [hres]
      · simp
    | succ k => exact ih hs
  | @jump p i label known rest ht hx hl hk hr ih =>
    match k with
    | 0 =>
      cases hs
      rw [ht] at hi
      cases hi
    | 1 =>
      cases hs
      obtain ⟨j, rest', rfl⟩ := hr.head
      exact ⟨_, rfl, List.subset_append_right _ _⟩
    | k + 2 => exact ih hs
  | @merge p i label known rest dst incoming ht hx hl hk hdst hr ih =>
    match k with
    | 0 =>
      cases hs
      rw [ht] at hi
      cases hi
    | 1 =>
      cases hs
      exact ⟨_, rfl, List.subset_append_right _ _⟩
    | 2 =>
      cases hs
      obtain ⟨j, rest', rfl⟩ := hr.head
      exact ⟨_, rfl, fun _ h ↦ h⟩
    | k + 3 => exact ih hs

theorem phi_first (h : Whole p a) {k : Nat} {s : Step} (hs : a[k]? = some s)
    (hi : s.instr.isPhi = true) :
    ∃ j t, k = j + 1 ∧ a[j]? = some t ∧ t.instr = .label s.point.block := by
  induction h generalizing k with
  | @last p i ht hx =>
    cases k with
    | zero =>
      cases hs
      rw [Instr.isPhi_of_isTerminator ht] at hi
      cases hi
    | succ k => simp at hs
  | @plain p i rest h hr ih =>
    cases k with
    | zero =>
      cases hs
      rw [h.phi] at hi
      cases hi
    | succ k =>
      obtain ⟨j, t, rfl, ht, hl⟩ := ih hs
      exact ⟨j + 1, t, rfl, ht, hl⟩
  | @jump p i label known rest ht hx hl hk hr ih =>
    match k with
    | 0 =>
      cases hs
      rw [Instr.isPhi_of_isTerminator ht] at hi
      cases hi
    | 1 =>
      cases hs
      cases hi
    | k + 2 =>
      obtain ⟨j, t, rfl, ht, hl⟩ := ih hs
      exact ⟨j + 2, t, rfl, ht, hl⟩
  | @merge p i label known rest dst incoming ht hx hl hk hdst hr ih =>
    match k with
    | 0 =>
      cases hs
      rw [Instr.isPhi_of_isTerminator ht] at hi
      cases hi
    | 1 =>
      cases hs
      cases hi
    | 2 =>
      cases hs
      exact ⟨1, _, rfl, rfl, rfl⟩
    | k + 3 =>
      obtain ⟨j, t, rfl, ht, hl⟩ := ih hs
      exact ⟨j + 3, t, rfl, ht, hl⟩

end Whole

end PZero.IR
