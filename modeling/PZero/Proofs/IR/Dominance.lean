import PZero.Proofs.IR.Structured

namespace PZero.IR

theorem filterMap_position {α β : Type} {f : α → Option β} {l : List α}
    (h : (l.filterMap f).Nodup) {i j : Nat} {a b : α} {c : β} (hi : l[i]? = some a)
    (hj : l[j]? = some b) (ha : f a = some c) (hb : f b = some c) : i = j := by
  induction l generalizing i j with
  | nil => simp at hi
  | cons x l ih =>
    have htail : (l.filterMap f).Nodup := by
      rw [List.filterMap_cons] at h
      split at h
      · exact h
      · exact (List.nodup_cons.1 h).2
    have hfresh : ∀ {k : Nat} {y : α}, l[k]? = some y → f y = some c → f x ≠ some c := by
      intro k y hk hy hx
      rw [List.filterMap_cons, hx] at h
      exact (List.nodup_cons.1 h).1 (List.mem_filterMap.2 ⟨y, List.mem_of_getElem? hk, hy⟩)
    match i, j with
    | 0, 0 => rfl
    | 0, j + 1 =>
      cases hi
      exact absurd ha (hfresh hj hb)
    | i + 1, 0 =>
      cases hj
      exact absurd hb (hfresh hi ha)
    | i + 1, j + 1 => rw [ih htail hi hj]

theorem map_eq_of_rel {α β γ : Type} {R : α → β → Prop} {f : α → γ} {g : β → γ} {as : List α}
    {bs : List β} (h : List.Forall₂ (fun a b ↦ f a = g b ∧ R a b) as bs) :
    as.map f = bs.map g := by
  induction h with
  | nil => rfl
  | cons hr _ ih => rw [List.map_cons, List.map_cons, hr.1, ih]

theorem rel_of_key {α β γ : Type} {R : α → β → Prop} {f : α → γ} {g : β → γ} {as : List α}
    {bs : List β} (h : List.Forall₂ (fun a b ↦ f a = g b ∧ R a b) as bs) (hn : (as.map f).Nodup)
    {a : α} {b : β} (ha : a ∈ as) (hb : b ∈ bs) (he : f a = g b) : R a b := by
  induction h with
  | nil => cases ha
  | @cons a' b' as bs hr hrest ih =>
    rw [List.map_cons, List.nodup_cons] at hn
    have hkeys := map_eq_of_rel hrest
    rcases List.mem_cons.1 ha with rfl | ha' <;> rcases List.mem_cons.1 hb with rfl | hb'
    · exact hr.2
    · exact absurd (he ▸ hkeys ▸ List.mem_map_of_mem hb') hn.1
    · exact absurd (hr.1 ▸ he ▸ List.mem_map_of_mem ha') hn.1
    · exact ih hn.2 ha' hb'

namespace Numbered

variable {label : Bytes}

theorem entry : Numbered Draft.entry := ⟨ascii "entry", 0, by decide⟩

theorem ne_ofNat (h : Numbered label) (n : Nat) : label ≠ Bytes.ofNat n := by
  obtain ⟨stem, k, rfl⟩ := h
  intro he
  have hm : (95 : UInt8) ∈ Bytes.ofNat n := by
    rw [← he]
    simp
  exact absurd (Bytes.isDigit_of_mem_ofNat hm) (by decide)

theorem ne_parameter (h : Numbered label) (name : Bytes) : label ≠ Symbol.parameter name := by
  obtain ⟨stem, k, rfl⟩ := h
  intro he
  have hlast : (stem ++ 95 :: Bytes.ofNat k).getLast? = some 112 := by
    rw [he]
    simp [Symbol.parameter, ascii]
  -- the last byte of a label is a digit, or the mark before its number
  have hm : (112 : UInt8) ∈ 95 :: Bytes.ofNat k := by
    rw [List.getLast?_append_of_ne_nil _ (List.cons_ne_nil _ _)] at hlast
    exact List.mem_of_getLast? hlast
  rcases List.mem_cons.1 hm with h | h
  · exact absurd h (by decide)
  · exact absurd (Bytes.isDigit_of_mem_ofNat h) (by decide)

end Numbered

/-- A function with structured code from its entry to its return. -/
structure Function.Shaped (f : Function) (a : List Step) (q : Point) (last : Instr) : Prop where
  code : Structured ⟨Draft.entry, f.params, 0⟩ a q
  terminator : last.isTerminator = true
  targets : last.targets = []
  known : ∀ x ∈ last.operands, x.KnownIn q.known
  body : f.body = .label Draft.entry :: (IR.code a ++ [last])
  nodup : (labels f.body).Nodup
  params : ∀ r ∈ f.params, ∃ name, r.name = Symbol.parameter name

namespace Function.Shaped

variable {f : Function} {a : List Step} {q : Point} {last : Instr}

def steps (f : Function) (a : List Step) (q : Point) (last : Instr) : List Step :=
  ⟨.label Draft.entry, ⟨Draft.entry, f.params, 0⟩⟩ :: (a ++ [⟨last, q⟩])

theorem whole (h : f.Shaped a q last) :
    Whole ⟨Draft.entry, f.params, 0⟩ (a ++ [⟨last, q⟩]) :=
  h.code.whole (.last h.terminator h.known)

theorem body_eq (h : f.Shaped a q last) : f.body = IR.code (steps f a q last) := by
  rw [h.body]
  simp [steps, IR.code]

theorem getElem?_body (h : f.Shaped a q last) (u : Nat) :
    f.body[u]? = ((steps f a q last)[u]?).map Step.instr := by
  rw [h.body_eq, List.getElem?_map]

theorem placed_eq (h : f.Shaped a q last) :
    placed [] f.body = (steps f a q last).map fun s ↦ (s.point.block, s.instr) := by
  have hp := h.whole.placed_eq
  rw [h.body_eq]
  exact congrArg ((Draft.entry, Instr.label Draft.entry) :: ·) hp

theorem jumps (h : f.Shaped a q last) : Jumps (steps f a q last) a := by
  refine List.forall_mem_cons.2 ⟨by simp [Instr.targets], jumps_append.2 ⟨h.code.jumps, ?_⟩⟩
  simp [Jumps, h.targets]

theorem labels_eq (h : f.Shaped a q last) :
    labels f.body = Draft.entry :: labels (IR.code a) := by
  rw [h.body, labels_label, labels_append,
    labels_other (Instr.isLabel_of_isTerminator h.terminator),
    labels_nil, List.append_nil]

theorem numbered (h : f.Shaped a q last) : (defined f.body).map Register.name =
    (List.range (defined f.body).length).map Bytes.ofNat := by
  have hd : defined f.body = defined (IR.code (a ++ [⟨last, q⟩])) := by
    rw [h.body_eq]
    rfl
  rw [hd, h.whole.numbered, List.range_eq_range']

theorem defined_nodup (h : f.Shaped a q last) : (defined f.body).Nodup := by
  refine List.Nodup.of_map Register.name ?_
  rw [h.numbered]
  exact List.nodup_range.map fun m n ↦ Bytes.ofNat_inj

/-- What is known at a position is defined at positions that were passed. -/
theorem walk_known (h : f.Shaped a q last) {passed : List Nat} {u : Nat}
    (hw : Walk f.body passed u) :
    ∃ s, (steps f a q last)[u]? = some s ∧ ∀ r ∈ s.point.known, r ∈ f.params ∨
      ∃ d ∈ passed, ∃ i, f.body[d]? = some i ∧ i.result? = some r := by
  induction hw with
  | start => exact ⟨_, rfl, fun r hr ↦ .inl hr⟩
  | @step passed i j hw hf ih =>
    obtain ⟨s, hs, hknown⟩ := ih
    have hbody : f.body[i]? = some s.instr := by rw [h.getElem?_body, hs, Option.map_some]
    have hcarry : ∀ r ∈ s.instr.result?.toList ++ s.point.known, r ∈ f.params ∨
        ∃ d ∈ i :: passed, ∃ i', f.body[d]? = some i' ∧ i'.result? = some r := by
      intro r hr
      rcases List.mem_append.1 hr with hr | hr
      · exact .inr ⟨i, List.mem_cons_self, s.instr, hbody, Option.mem_toList.1 hr⟩
      · rcases hknown r hr with hp | ⟨d, hd, hrest⟩
        · exact .inl hp
        · exact .inr ⟨d, List.mem_cons_of_mem _ hd, hrest⟩
    cases hf with
    | @next instr hi ht =>
      rw [hbody] at hi
      cases hi
      have hnext : ∃ t, (steps f a q last)[i + 1]? = some t ∧
          t.point.known ⊆ s.instr.result?.toList ++ s.point.known := by
        cases i with
        | zero =>
          cases hs
          obtain ⟨j, rest, hj⟩ := h.whole.head
          exact ⟨_, by rw [steps, hj]; rfl, fun _ hr ↦ hr⟩
        | succ i => exact h.whole.next_known hs ht
      obtain ⟨t, htail, hsub⟩ := hnext
      exact ⟨t, htail, fun r hr ↦ hcarry r (hsub hr)⟩
    | @jump instr target j hi ht hj =>
      rw [hbody] at hi
      cases hi
      obtain ⟨t, hta, htl, hsub⟩ := h.jumps s (List.mem_of_getElem? hs) target ht
      -- the label is placed once, so this is where the branch goes
      have hmem : t ∈ steps f a q last :=
        List.mem_cons_of_mem _ (List.mem_append_left _ hta)
      obtain ⟨k, hk⟩ := List.mem_iff_getElem?.1 hmem
      have hkl : f.body[k]? = some (.label target) := by
        rw [h.getElem?_body, hk, Option.map_some, htl]
      have hjk : j = k := filterMap_position h.nodup hj hkl rfl rfl
      subst hjk
      exact ⟨t, hk, fun r hr ↦ hcarry r (List.mem_append_right _ (hsub hr))⟩

theorem step_at (h : f.Shaped a q last) {u : Nat} {i : Instr} (hi : f.body[u]? = some i) :
    ∃ s, (steps f a q last)[u]? = some s ∧ s.instr = i := by
  rw [h.getElem?_body] at hi
  exact Option.map_eq_some_iff.1 hi

theorem dominated (h : f.Shaped a q last) {u : Nat} {s : Step} {r : Register}
    (hs : (steps f a q last)[u]? = some s) (hr : r ∈ s.point.known) :
    r ∈ f.params ∨ ∃ d i, f.body[d]? = some i ∧ i.result? = some r ∧ Dominates f.body d u := by
  by_cases hp : r ∈ f.params
  · exact .inl hp
  have hdef : r ∈ defined f.body := by
    have hd : defined f.body = defined (IR.code (a ++ [⟨last, q⟩])) := by
      rw [h.body_eq]
      rfl
    rw [hd]
    rcases List.mem_cons.1 (List.mem_of_getElem? hs) with rfl | hmem
    · exact absurd hr hp
    · exact (h.whole.known_defined s hmem r hr).resolve_left hp
  obtain ⟨i, hi, hres⟩ := List.mem_filterMap.1 hdef
  obtain ⟨d, hd⟩ := List.mem_iff_getElem?.1 hi
  refine .inr ⟨d, i, hd, hres, fun passed hw ↦ ?_⟩
  obtain ⟨t, ht, hknown⟩ := h.walk_known hw
  rw [hs] at ht
  cases ht
  obtain ⟨d', hd', i', hi', hres'⟩ := (hknown r hr).resolve_left hp
  have hdd : d = d' := filterMap_position h.defined_nodup hd hi' hres hres'
  rwa [hdd]

theorem phiFits (h : f.Shaped a q last) {s : Step} {dst : Register} {incoming : List Incoming}
    (hs : s ∈ steps f a q last) (hi : s.instr = .phi dst incoming) :
    PhiFits a s.point.block incoming ∧
      ∀ r, r ∈ sources s.point.block a ↔
        ∃ i, ⟨i, r⟩ ∈ steps f a q last ∧ s.point.block ∈ i.targets := by
  have hn : (labels (IR.code a)).Nodup := by
    have := h.nodup
    rw [h.labels_eq] at this
    exact (List.nodup_cons.1 this).2
  have hsa : s ∈ a := by
    rcases List.mem_cons.1 hs with rfl | hs
    · cases hi
    rcases List.mem_append.1 hs with hs | hs
    · exact hs
    · rw [List.mem_singleton.1 hs] at hi
      have ht := h.terminator
      rw [show last = .phi dst incoming from hi] at ht
      cases ht
  refine ⟨h.code.phisFit hn s hsa dst incoming hi, fun r ↦ ?_⟩
  rw [mem_sources]
  constructor
  · rintro ⟨i, hi, ht⟩
    exact ⟨i, List.mem_cons_of_mem _ (List.mem_append_left _ hi), ht⟩
  · rintro ⟨i, hi, ht⟩
    rcases List.mem_cons.1 hi with hi | hi
    · cases hi
      simp [Instr.targets] at ht
    rcases List.mem_append.1 hi with hi | hi
    · exact ⟨i, hi, ht⟩
    · cases List.mem_singleton.1 hi
      rw [h.targets] at ht
      cases ht

theorem labels_apart (h : f.Shaped a q last) : ∀ l ∈ labels f.body,
    l ∉ (defined f.body).map Register.name ∧ l ∉ f.params.map Register.name := by
  intro l hl
  have hnumbered : Numbered l := by
    rw [h.labels_eq] at hl
    rcases List.mem_cons.1 hl with rfl | hl
    · exact .entry
    · refine h.whole.labels_numbered l ?_
      rw [labels_code_append]
      exact List.mem_append_left _ hl
  refine ⟨fun hm ↦ ?_, fun hm ↦ ?_⟩
  · rw [h.numbered] at hm
    obtain ⟨n, -, hn⟩ := List.mem_map.1 hm
    exact hnumbered.ne_ofNat n hn.symm
  · obtain ⟨r, hr, hn⟩ := List.mem_map.1 hm
    obtain ⟨name, hname⟩ := h.params r hr
    exact hnumbered.ne_parameter name (hn.symm.trans hname)

theorem targets_labels (h : f.Shaped a q last) :
    ∀ i ∈ f.body, ∀ t ∈ i.targets, t ∈ labels f.body ∧ t ≠ Draft.entry := by
  intro i hi t ht
  rw [h.body_eq] at hi
  obtain ⟨s, hs, rfl⟩ := List.mem_map.1 hi
  have hl := (h.jumps s hs t ht).label_mem
  have hn := h.nodup
  rw [h.labels_eq] at hn ⊢
  refine ⟨List.mem_cons_of_mem _ hl, ?_⟩
  rintro rfl
  exact (List.nodup_cons.1 hn).1 hl

theorem used_known (h : f.Shaped a q last) {r : Register} {u : Nat} (hu : UsedAt f.body r u) :
    ∃ s, (steps f a q last)[u]? = some s ∧ r ∈ s.point.known := by
  cases hu with
  | operand hi hr =>
    obtain ⟨s, hs, rfl⟩ := h.step_at hi
    refine ⟨s, hs, ?_⟩
    rcases List.mem_cons.1 (List.mem_of_getElem? hs) with rfl | hmem
    · simp at hr
    · exact h.whole.operands_known s hmem _ hr
  | @incoming i block label dst incoming hphi hr hu ht =>
    rw [h.placed_eq] at hphi hu
    obtain ⟨t, hmem, he⟩ := List.mem_map.1 hphi
    obtain ⟨rfl, hi⟩ := Prod.mk.inj he
    rw [List.getElem?_map] at hu
    obtain ⟨s, hs, hsl⟩ := Option.map_eq_some_iff.1 hu
    obtain ⟨rfl, rfl⟩ := Prod.mk.inj hsl
    obtain ⟨hfits, hsources⟩ := h.phiFits hmem hi
    have hbranch : s.point ∈ sources t.point.block a :=
      (hsources s.point).2 ⟨s.instr, List.mem_of_getElem? hs, ht⟩
    exact ⟨s, hs, rel_of_key hfits.branches hfits.nodup hr hbranch rfl⟩

theorem isSSA (h : f.Shaped a q last) : f.IsSSA where
  entry := ⟨_, h.body⟩
  blocks := by
    have hc : cut f.body = ([], ⟨Draft.entry, (cut (IR.code (a ++ [⟨last, q⟩]))).1⟩ ::
        (cut (IR.code (a ++ [⟨last, q⟩]))).2) := by
      rw [h.body_eq]
      rfl
    rw [hc]
    exact List.forall_mem_cons.2 h.whole.endsOnce
  labels_nodup := h.nodup
  labels_apart := h.labels_apart
  targets := h.targets_labels
  numbered := h.numbered
  dominated r u hu := by
    obtain ⟨s, hs, hr⟩ := h.used_known hu
    exact h.dominated hs hr
  phis u block dst incoming hu := by
    rw [h.placed_eq, List.getElem?_map] at hu
    obtain ⟨s, hs, he⟩ := Option.map_eq_some_iff.1 hu
    obtain ⟨rfl, hi⟩ := Prod.mk.inj he
    obtain ⟨hfits, hsources⟩ := h.phiFits (List.mem_of_getElem? hs) hi
    refine ⟨?_, hfits.nodup, fun l ↦ ?_⟩
    · cases u with
      | zero =>
        cases hs
        cases hi
      | succ u =>
        have hphi : s.instr.isPhi = true := by rw [hi]; rfl
        obtain ⟨j, t, rfl, ht, htl⟩ := h.whole.phi_first hs hphi
        refine ⟨j + 1, rfl, ?_⟩
        rw [h.getElem?_body, ← htl]
        exact congrArg (Option.map Step.instr) ht
    · rw [map_eq_of_rel hfits.branches, h.placed_eq, List.mem_map]
      constructor
      · rintro ⟨r, hr, rfl⟩
        obtain ⟨i, hmem, ht⟩ := (hsources r).1 hr
        exact ⟨i, List.mem_map.2 ⟨⟨i, r⟩, hmem, rfl⟩, ht⟩
      · rintro ⟨i, hmem, ht⟩
        obtain ⟨t, htm, hte⟩ := List.mem_map.1 hmem
        obtain ⟨rfl, rfl⟩ := Prod.mk.inj hte
        exact ⟨t.point, (hsources t.point).2 ⟨t.instr, htm, ht⟩, rfl⟩

end Function.Shaped

end PZero.IR
