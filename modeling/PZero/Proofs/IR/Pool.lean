import PZero.Proofs.IR.Names

namespace PZero.IR

def pooledFrom (n : Nat) : List Bytes → List Global
  | [] => []
  | text :: texts => ModuleDraft.poolGlobal n text :: pooledFrom (n + 1) texts

theorem pooledFrom_append (n : Nat) (a b : List Bytes) :
    pooledFrom n (a ++ b) = pooledFrom n a ++ pooledFrom (n + a.length) b := by
  induction a generalizing n with
  | nil => simp [pooledFrom]
  | cons t ts ih => simp [pooledFrom, ih, Nat.add_right_comm, Nat.add_assoc]

def ModuleDraft.withPool (m : ModuleDraft) (texts : List Bytes) : ModuleDraft :=
  { m with globals := m.globals ++ pooledFrom m.pool.length texts, pool := m.pool ++ texts }

theorem ModuleDraft.withPool_nil (m : ModuleDraft) : m.withPool [] = m := by
  simp [withPool, pooledFrom]

theorem ModuleDraft.withPool_withPool (m : ModuleDraft) (a b : List Bytes) :
    (m.withPool a).withPool b = m.withPool (a ++ b) := by
  simp [withPool, pooledFrom_append]

/-- A string of the pool is found there, and any other is added behind the rest. -/
theorem ModuleDraft.intern_cases (m : ModuleDraft) (text : Bytes) :
    (∃ n, m.pool[n]? = some text ∧ m.intern text = ((poolGlobal n text).ref, m)) ∨
      text ∉ m.pool ∧
        m.intern text = ((poolGlobal m.pool.length text).ref, m.withPool [text]) := by
  unfold intern
  cases h : m.pool.idxOf? text with
  | some n =>
    obtain ⟨hn, he, -⟩ := List.idxOf?_eq_some_iff.1 h
    have ht : m.pool[n]? = some text := List.getElem?_eq_some_iff.2 ⟨hn, by simpa using he⟩
    exact .inl ⟨n, ht, rfl⟩
  | none => exact .inr ⟨List.idxOf?_eq_none_iff.1 h, rfl⟩

theorem ModuleDraft.intern_eq (m : ModuleDraft) (text : Bytes) :
    ∃ n texts, m.intern text = ((poolGlobal n text).ref, m.withPool texts) ∧
      (m.withPool texts).pool[n]? = some text := by
  obtain ⟨n, ht, hi⟩ | ⟨-, hi⟩ := m.intern_cases text
  · exact ⟨n, [], by rw [withPool_nil, hi], by rw [withPool_nil, ht]⟩
  · exact ⟨m.pool.length, [text], hi, by simp [withPool]⟩

theorem mem_pooledFrom {k : Nat} {texts : List Bytes} {g : Global} :
    g ∈ pooledFrom k texts ↔
      ∃ i text, texts[i]? = some text ∧ g = ModuleDraft.poolGlobal (k + i) text := by
  induction texts generalizing k with
  | nil => simp [pooledFrom]
  | cons t texts ih =>
    rw [pooledFrom, List.mem_cons, ih]
    constructor
    · rintro (rfl | ⟨i, text, ht, rfl⟩)
      · exact ⟨0, t, rfl, rfl⟩
      · exact ⟨i + 1, text, ht, by rw [Nat.add_right_comm, Nat.add_assoc]⟩
    · rintro ⟨i, text, ht, rfl⟩
      cases i with
      | zero =>
        cases ht
        exact .inl rfl
      | succ i => exact .inr ⟨i, text, ht, by rw [Nat.add_right_comm, Nat.add_assoc]⟩

theorem pooledFrom_nodup (k : Nat) (texts : List Bytes) :
    ((pooledFrom k texts).map Global.name).Nodup := by
  induction texts generalizing k with
  | nil => simp [pooledFrom]
  | cons t texts ih =>
    rw [pooledFrom, List.map_cons, List.nodup_cons]
    refine ⟨fun hm ↦ ?_, ih (k + 1)⟩
    obtain ⟨g, hg, hn⟩ := List.mem_map.1 hm
    obtain ⟨i, text, -, rfl⟩ := mem_pooledFrom.1 hg
    have := Symbol.pooled_inj hn
    omega

end PZero.IR
