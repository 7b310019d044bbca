import PZero.Proofs.Machine.State
import PZero.Proofs.Typing.Scope

namespace PZero.Machine

open IR

def Image.ofModule (m : Module) (limits : Limits) : Image where
  module := m
  globals := globalBlocks m.globals
  maxSteps := limits.maxSteps
  maxDepth := if limits.maxDepth = 0 then usualDepth else limits.maxDepth

theorem lookup_globalBlocks {globals : List Global} (h : (globals.map Global.name).Nodup)
    {name : Bytes} {b : Nat} :
    (globalBlocks globals).lookup name = some b ↔ ∃ g, globals[b]? = some g ∧ g.name = name := by
  have hk : ((globalBlocks globals).map Prod.fst).Nodup := by
    rw [globalBlocks, List.map_reverse, List.nodup_reverse, List.zipIdx_map_fst]
    exact h
  rw [Typing.lookup_iff_mem hk, globalBlocks, List.mem_reverse, List.mk_mem_zipIdx_iff_getElem?,
    List.getElem?_map, Option.map_eq_some_iff]

theorem length_globalBlocks (globals : List Global) :
    (globalBlocks globals).length = globals.length := by
  simp [globalBlocks]

theorem Image.function?_of_mem {image : Image} {F : Function}
    (h : (image.module.functions.map Function.name).Nodup) (hF : F ∈ image.module.functions) :
    image.function? F.name = some F := by
  have hf : ∃ G, image.function? F.name = some G := by
    rw [function?, ← Option.isSome_iff_exists, List.find?_isSome]
    exact ⟨F, List.mem_reverse.2 hF, by simp⟩
  obtain ⟨G, hG⟩ := hf
  have hn : G.name = F.name := by simpa using List.find?_some hG
  have hm : G ∈ image.module.functions := List.mem_reverse.1 (List.mem_of_find?_eq_some hG)
  rw [hG, List.inj_on_of_nodup_map h hm hF hn]

theorem Image.function?_eq_none {image : Image} {name : Bytes}
    (h : name ∉ image.module.functions.map Function.name) : image.function? name = none := by
  rw [function?, List.find?_eq_none]
  intro F hF he
  have hn : F.name = name := by simpa using he
  exact h (hn ▸ List.mem_map_of_mem (List.mem_reverse.1 hF))

/-- The block of a global before its value is known. -/
def freshBlock (g : Global) : Block :=
  ⟨ascii "@" ++ g.name, g.isConst, (layout g.type).toArray⟩

/-- A global whose value fits its type. -/
structure Loadable (image : Image) (g : Global) (values : List Value) : Prop where
  widths : ∀ v ∈ layout g.type, isWidth v.width = true
  flatten : flatten image g.value = .ok values
  length : values.length = (layout g.type).length

def loadedBlock (g : Global) (values : List Value) : Block :=
  ⟨ascii "@" ++ g.name, g.isConst, values.toArray⟩

variable {image : Image} {g : Global} {values : List Value}

theorem globalBlock_eq (h : Loadable image g values) : globalBlock g = .ok (freshBlock g) := by
  have hf : (layout g.type).find? (fun v ↦ !isWidth v.width) = none := by
    rw [List.find?_eq_none]
    intro v hv
    simp [h.widths v hv]
  simp [globalBlock, Block.fresh, hf, Except.mapError, freshBlock]

theorem mapM_globalBlock {globals : List Global}
    (h : ∀ g ∈ globals, ∃ values, Loadable image g values) :
    globals.mapM globalBlock = .ok (globals.map freshBlock) := by
  induction globals with
  | nil => rfl
  | cons g globals ih =>
    obtain ⟨values, hg⟩ := h g List.mem_cons_self
    have hi := ih fun g' hg' ↦ h g' (List.mem_cons_of_mem _ hg')
    rw [List.mapM_cons, globalBlock_eq hg, hi]
    rfl

theorem initialise_eq {before after : List Block} (h : Loadable image g values)
    (hb : image.globals.lookup g.name = some before.length) :
    initialise image (before ++ freshBlock g :: after).toArray g =
      .ok (before ++ loadedBlock g values :: after).toArray := by
  have hsize : ((((before ++ freshBlock g :: after).toArray : Memory)[before.length]?).map
      (·.cells.size)).getD 0 = values.length := by
    simp [freshBlock, h.length]
  simp only [initialise, h.flatten, hb, hsize, ne_eq, not_true_eq_false, if_false]
  congr 1
  apply Array.ext'
  rw [Array.toList_modify, List.modify_eq_take_cons_drop (by simp)]
  simp [loadedBlock, freshBlock]

theorem foldlM_initialise {rest : List Global} {done : List Block}
    (hb : ∀ i g, rest[i]? = some g → image.globals.lookup g.name = some (done.length + i))
    (h : ∀ g ∈ rest, ∃ values, Loadable image g values) :
    ∃ blocks, List.Forall₂ (fun g b ↦ ∃ values, Loadable image g values ∧ b = loadedBlock g values)
        rest blocks ∧
      rest.foldlM (initialise image) (done ++ rest.map freshBlock).toArray =
        .ok (done ++ blocks).toArray := by
  induction rest generalizing done with
  | nil => exact ⟨[], .nil, by simp [pure, Except.pure]⟩
  | cons g rest ih =>
    obtain ⟨values, hg⟩ := h g List.mem_cons_self
    have hstep : initialise image (done ++ freshBlock g :: rest.map freshBlock).toArray g = .ok _ :=
      initialise_eq hg (hb 0 g rfl)
    have hb' : ∀ i g', rest[i]? = some g' → image.globals.lookup g'.name =
        some ((done ++ [loadedBlock g values]).length + i) := by
      intro i g' hi
      rw [hb (i + 1) g' hi, List.length_append, List.length_singleton]
      congr 1
      omega
    obtain ⟨blocks, hf, hrest⟩ := ih hb' fun g' hg' ↦ h g' (List.mem_cons_of_mem _ hg')
    refine ⟨loadedBlock g values :: blocks, .cons ⟨values, hg, rfl⟩ hf, ?_⟩
    rw [List.foldlM_cons, List.map_cons, hstep]
    simp only [List.append_assoc, List.singleton_append] at hrest
    exact hrest

theorem forall₂_getElem? {α β : Type} {R : α → β → Prop} {l : List α} {l' : List β} {i : Nat}
    {a : α} (h : List.Forall₂ R l l') (hi : l[i]? = some a) : ∃ b, l'[i]? = some b ∧ R a b := by
  induction h generalizing i with
  | nil => simp at hi
  | cons hx _ ih =>
    cases i with
    | zero =>
      cases hi
      exact ⟨_, rfl, hx⟩
    | succ i => exact ih hi

/-- A module whose globals have their own names and values that fit is loaded. Every global then has
its value in its block. -/
theorem load_ok {m : Module} {limits : Limits} (hn : (m.globals.map Global.name).Nodup)
    (h : ∀ g ∈ m.globals, ∃ values, Loadable (.ofModule m limits) g values) :
    ∃ memory : Memory, Session.load m limits = .ok ⟨.ofModule m limits, memory, 0, 0⟩ ∧
      memory.size = m.globals.length ∧
      ∀ g ∈ m.globals, ∀ values, Loadable (.ofModule m limits) g values →
        ∃ b, (globalBlocks m.globals).lookup g.name = some b ∧
          memory[b]? = some (loadedBlock g values) := by
  have hb : ∀ i g, m.globals[i]? = some g →
      (Image.ofModule m limits).globals.lookup g.name = some (([] : List Block).length + i) := by
    intro i g hi
    rw [List.length_nil, Nat.zero_add]
    exact (lookup_globalBlocks hn).2 ⟨g, hi, rfl⟩
  obtain ⟨blocks, hf, hfold⟩ := foldlM_initialise hb h
  simp only [List.nil_append] at hfold
  refine ⟨blocks.toArray, ?_, ?_, ?_⟩
  · change Except.bind (m.globals.mapM globalBlock) (fun fresh ↦
      Except.bind (m.globals.foldlM (initialise (.ofModule m limits)) fresh.toArray) fun memory ↦
        .ok (⟨.ofModule m limits, memory, 0, 0⟩ : Session)) = _
    rw [mapM_globalBlock h]
    simp only [Except.bind, hfold]
  · rw [List.size_toArray, hf.length_eq]
  · intro g hg values hv
    obtain ⟨b, hgb⟩ := List.getElem?_of_mem hg
    obtain ⟨block, hblock, values', hv', rfl⟩ := forall₂_getElem? hf hgb
    have he : values' = values := by
      have hflat := hv'.flatten
      rw [hv.flatten] at hflat
      cases hflat
      rfl
    refine ⟨b, (lookup_globalBlocks hn).2 ⟨g, hgb, rfl⟩, ?_⟩
    rw [List.getElem?_toArray, hblock, he]

end PZero.Machine
