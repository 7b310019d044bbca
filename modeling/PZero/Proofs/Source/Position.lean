import Mathlib.Data.Finset.Card
import Mathlib.Data.Finset.Range
import Mathlib.Data.List.GetD
import Mathlib.Data.List.Sort
import Mathlib.Data.Prod.Lex
import PZero.Proofs.Text.Runes
import PZero.Source

namespace PZero.File

open Utf8 (Runes ends)

variable (f : File)

def newlinesBefore (position : Nat) : Nat :=
  ((Finset.range position).filter fun i ↦ f.input[i]? = some 10).card

/-- The line that a position is on starts at a place. -/
structure StartsLine (start position : Nat) : Prop where
  le : start ≤ position
  first : start = 0 ∨ f.input[start - 1]? = some 10
  line : ∀ i, start ≤ i → i < position → f.input[i]? ≠ some 10

/-- A position between two runes of its line, or at an end of it. -/
def IsBoundary (position : Nat) : Prop :=
  ∃ start rs, f.StartsLine start position ∧ Runes (f.input.drop start) rs ∧
    (position = start ∨ position ∈ ends start rs)

theorem clamp_mono {a b : Int} (h : a ≤ b) : f.clamp a ≤ f.clamp b := by
  unfold clamp
  omega

variable {f}

theorem search_bounds (test : Nat → Bool) {low high : Nat} (h : low ≤ high) :
    low ≤ search test low high ∧ search test low high ≤ high := by
  fun_induction search test low high with
  | case1 low high hlt middle htest ih => have := ih (by omega); omega
  | case2 low high hlt middle htest ih => have := ih (by omega); omega
  | case3 low high hge => exact ⟨Nat.le_refl _, h⟩

theorem search_iff {test : Nat → Bool} {low high : Nat}
    (hmono : ∀ i j, i ≤ j → j < high → test i = true → test j = true) {i : Nat} (hlow : low ≤ i)
    (hhigh : i < high) : test i = true ↔ search test low high ≤ i := by
  fun_induction search test low high with
  | case1 low high hlt middle htest ih =>
    obtain hless | hmore := Nat.lt_or_ge i middle
    · exact ih (fun j k hjk hk ↦ hmono j k hjk (by omega)) hlow hless
    · have := (search_bounds test (show low ≤ middle by omega)).2
      exact ⟨fun _ ↦ by omega, fun _ ↦ hmono middle i hmore hhigh htest⟩
  | case2 low high hlt middle htest ih =>
    obtain hless | hmore := Nat.lt_or_ge middle i
    · exact ih hmono hless hhigh
    · have := (search_bounds test (show middle + 1 ≤ high by omega)).1
      exact ⟨fun hi ↦ absurd (hmono i middle hmore (by omega) hi) htest, fun _ ↦ by omega⟩
  | case3 low high hge => omega

theorem mem_behindNewlines {place start : Nat} {text : Bytes} :
    start ∈ behindNewlines place text ↔ ∃ i, text[i]? = some 10 ∧ start = place + i + 1 := by
  induction text generalizing place with
  | nil => simp [behindNewlines]
  | cons b rest ih =>
    have hrest : start ∈ behindNewlines (place + 1) rest ↔
        ∃ i, (b :: rest)[i + 1]? = some 10 ∧ start = place + (i + 1) + 1 := by
      rw [ih]
      simp only [List.getElem?_cons_succ, Nat.add_assoc, Nat.add_comm 1]
    rw [← Nat.or_exists_add_one, ← hrest, List.getElem?_cons_zero, Option.some_inj]
    by_cases hb : b = 10 <;> simp [behindNewlines, hb]

theorem behindNewlines_sorted (place : Nat) (text : Bytes) :
    (place :: behindNewlines place text).SortedLT := by
  refine List.Pairwise.sortedLT ?_
  induction text generalizing place with
  | nil => exact List.pairwise_singleton _ _
  | cons b rest ih =>
    obtain ⟨hmore, hsorted⟩ := List.pairwise_cons.1 (ih (place + 1))
    rw [behindNewlines]
    split
    · refine List.pairwise_cons.2 ⟨fun s hs ↦ ?_, ih (place + 1)⟩
      obtain rfl | hs := List.mem_cons.1 hs
      · exact Nat.lt_succ_self _
      · exact Nat.lt_of_succ_lt (hmore s hs)
    · exact List.pairwise_cons.2 ⟨fun s hs ↦ Nat.lt_of_succ_lt (hmore s hs), hsorted⟩

theorem countP_behindNewlines (place bound : Nat) (text : Bytes) :
    (behindNewlines place text).countP (· ≤ place + bound) = (text.take bound).count 10 := by
  induction text generalizing place bound with
  | nil => rw [List.take_nil]; rfl
  | cons b rest ih =>
    cases bound with
    | zero =>
      refine List.countP_eq_zero.2 fun s hs ↦ ?_
      have := (List.pairwise_cons.1 (behindNewlines_sorted place (b :: rest)).pairwise).1 s hs
      rw [decide_eq_true_eq]
      omega
    | succ bound =>
      have hrest := ih (place + 1) bound
      rw [Nat.add_assoc, Nat.add_comm 1] at hrest
      by_cases hb : b = 10
      · subst hb
        rw [behindNewlines, if_pos rfl, List.countP_cons_of_pos (by rw [decide_eq_true_eq]; omega),
          hrest, List.take_succ_cons, List.count_cons_self]
      · rw [behindNewlines, if_neg hb, hrest, List.take_succ_cons, List.count_cons_of_ne hb]

theorem getElem_lineStarts_le_iff {position i : Nat} (hi : i < f.lineStarts.length) :
    f.lineStarts[i] ≤ position ↔ i ≤ f.lineAt position := by
  have hsorted : f.lineStarts.SortedLT := behindNewlines_sorted 0 f.input
  have htest : ∀ j (hj : j < f.lineStarts.length),
      decide (position < f.lineStarts.getD j 0) = true ↔ position < f.lineStarts[j] := by
    intro j hj
    rw [decide_eq_true_eq, List.getD_eq_getElem _ _ hj]
  have hmono : ∀ j k, j ≤ k → k < f.lineStarts.length →
      decide (position < f.lineStarts.getD j 0) = true →
        decide (position < f.lineStarts.getD k 0) = true := fun j k hjk hk hj ↦
    (htest k hk).2 <| Nat.lt_of_lt_of_le ((htest j (by omega)).1 hj)
      (hsorted.getElem_le_getElem_iff.2 hjk)
  have hfound : ∀ j (hj : j < f.lineStarts.length), position < f.lineStarts[j] ↔
      search (fun i ↦ position < f.lineStarts.getD i 0) 0 f.lineStarts.length ≤ j :=
    fun j hj ↦ (htest j hj).symm.trans (search_iff hmono (Nat.zero_le _) hj)
  -- The first line starts at zero, so the search never stops on it.
  have hfirst := (hfound 0 (Nat.succ_pos _)).not.1 (Nat.not_lt_zero _)
  rw [← Nat.not_lt, hfound i hi]
  simp only [lineAt]
  omega

theorem lineAt_lt (f : File) (position : Nat) : f.lineAt position < f.lineStarts.length := by
  have hle := (search_bounds (fun i ↦ position < f.lineStarts.getD i 0)
    (Nat.zero_le f.lineStarts.length)).2
  have hlen : 0 < f.lineStarts.length := Nat.succ_pos _
  simp only [lineAt]
  omega

theorem countP_of_iff_lt {l : List Nat} {test : Nat → Bool} {n : Nat} (hn : n ≤ l.length)
    (h : ∀ i (hi : i < l.length), test l[i] = true ↔ i < n) : l.countP test = n := by
  induction l generalizing n with
  | nil => exact (Nat.le_zero.1 hn).symm
  | cons a l ih =>
    cases n with
    | zero =>
      refine List.countP_eq_zero.2 fun b hb ↦ ?_
      obtain ⟨i, hi, rfl⟩ := List.getElem_of_mem hb
      exact (h i hi).not.2 (Nat.not_lt_zero _)
    | succ n =>
      have hfirst : test a = true := (h 0 (Nat.succ_pos _)).2 (Nat.succ_pos _)
      rw [List.countP_cons_of_pos hfirst, ih (Nat.le_of_succ_le_succ hn) fun i hi ↦
        (h (i + 1) (Nat.succ_lt_succ hi)).trans Nat.succ_lt_succ_iff]

theorem count_take (position : Nat) :
    (f.input.take position).count 10 = f.newlinesBefore position := by
  induction position with
  | zero => rfl
  | succ p ih =>
    have hnot : p ∉ (Finset.range p).filter fun i ↦ f.input[i]? = some 10 := by simp
    unfold newlinesBefore at *
    rw [List.take_add_one, List.count_append, ih, Finset.range_add_one, Finset.filter_insert]
    cases hp : f.input[p]? with
    | none => simp
    | some b =>
      by_cases hb : b = 10
      · subst hb
        rw [if_pos rfl, Finset.card_insert_of_notMem hnot]
        rfl
      · simp [hb]

theorem lineAt_eq (f : File) (position : Nat) : f.lineAt position = f.newlinesBefore position := by
  have htable : f.lineStarts.countP (· ≤ position) = f.lineAt position + 1 :=
    countP_of_iff_lt (f.lineAt_lt position) fun i hi ↦ by
      rw [decide_eq_true_eq, getElem_lineStarts_le_iff hi, Nat.lt_succ_iff]
  have hcount := countP_behindNewlines 0 position f.input
  rw [Nat.zero_add, count_take] at hcount
  rw [lineStarts, List.countP_cons_of_pos (by rw [decide_eq_true_eq]; exact Nat.zero_le _),
    hcount] at htable
  exact (Nat.succ.inj htable).symm

theorem startsLine_lineAt (f : File) (position : Nat) :
    f.StartsLine (f.lineStarts.getD (f.lineAt position) 0) position := by
  have hlt := f.lineAt_lt position
  rw [List.getD_eq_getElem _ _ hlt]
  refine ⟨(getElem_lineStarts_le_iff hlt).2 (Nat.le_refl _), ?_, fun i hi hip hten ↦ ?_⟩
  · obtain hzero | hmem := List.mem_cons.1 (List.getElem_mem hlt)
    · exact .inl hzero
    · obtain ⟨i, hten, hi⟩ := mem_behindNewlines.1 hmem
      rw [hi, Nat.zero_add]
      exact .inr hten
  · -- The newline at `i` would start a later line of the table.
    have hmem : i + 1 ∈ f.lineStarts :=
      List.mem_cons_of_mem _ (mem_behindNewlines.2 ⟨i, hten, by rw [Nat.zero_add]⟩)
    obtain ⟨j, hj, hij⟩ := List.getElem_of_mem hmem
    have hle : j ≤ f.lineAt position := (getElem_lineStarts_le_iff hj).1 (by omega)
    have hsorted : f.lineStarts.SortedLT := behindNewlines_sorted 0 f.input
    have : f.lineStarts[j] ≤ f.lineStarts[f.lineAt position] :=
      hsorted.getElem_le_getElem_iff.2 hle
    omega

theorem StartsLine.unique {start start' position : Nat} (h : f.StartsLine start position)
    (h' : f.StartsLine start' position) : start = start' := by
  have hle : ∀ {s s' : Nat}, f.StartsLine s position → f.StartsLine s' position → s' ≤ s := by
    intro s s' hs hs'
    by_contra hlt
    obtain hzero | hnew := hs'.first
    · omega
    · have := hs'.le
      exact hs.line (s' - 1) (by omega) (by omega) hnew
  exact Nat.le_antisymm (hle h' h) (hle h h')

theorem newlinesBefore_mono {p q : Nat} (h : p ≤ q) : f.newlinesBefore p ≤ f.newlinesBefore q :=
  Finset.card_le_card (Finset.filter_subset_filter _ (Finset.range_mono h))

theorem StartsLine.extend {start p q : Nat} (h : f.StartsLine start p) (hle : p ≤ q)
    (hline : f.newlinesBefore p = f.newlinesBefore q) : f.StartsLine start q := by
  refine ⟨Nat.le_trans h.le hle, h.first, fun i hi hiq hten ↦ ?_⟩
  have hsub := Finset.filter_subset_filter (fun i ↦ f.input[i]? = some 10) (Finset.range_mono hle)
  have hmem : i ∈ (Finset.range q).filter fun i ↦ f.input[i]? = some 10 :=
    Finset.mem_filter.2 ⟨Finset.mem_range.2 hiq, hten⟩
  rw [← Finset.eq_of_subset_of_card_le hsub (Nat.le_of_eq hline.symm)] at hmem
  exact h.line i hi (Finset.mem_range.1 (Finset.mem_filter.1 hmem).1) hten

theorem lineCol_eq {offset : Int} {start : Nat} {rs : List Bytes}
    (hs : f.StartsLine start (f.clamp offset)) (hr : Runes (f.input.drop start) rs) :
    f.lineCol offset = (1 + f.newlinesBefore (f.clamp offset),
      1 + (ends start rs).countP (· ≤ f.clamp offset)) := by
  have hcount := Utf8.wholeWithin_eq hr start (f.clamp offset - start)
  rw [Nat.add_sub_cancel' hs.le] at hcount
  simp only [lineCol, (f.startsLine_lineAt _).unique hs, hcount]
  rw [lineAt_eq, Nat.add_comm]

theorem countP_mono (l : List Nat) {m n : Nat} (h : m ≤ n) :
    l.countP (· ≤ m) ≤ l.countP (· ≤ n) := by
  refine List.countP_mono_left fun x _ hx ↦ ?_
  rw [decide_eq_true_eq] at *
  omega

theorem countP_lt {l : List Nat} {m n : Nat} (hlt : m < n) (hm : n ∈ l) :
    l.countP (· ≤ m) < l.countP (· ≤ n) := by
  obtain ⟨front, back, rfl⟩ := List.append_of_mem hm
  have hfront := countP_mono front (Nat.le_of_lt hlt)
  have hback := countP_mono back (Nat.le_of_lt hlt)
  rw [List.countP_append, List.countP_append,
    List.countP_cons_of_neg (by rw [decide_eq_true_eq]; omega),
    List.countP_cons_of_pos (by rw [decide_eq_true_eq])]
  omega

theorem lineCol_mono (f : File) {a b : Int} (h : a ≤ b) :
    (f.lineCol a).1 < (f.lineCol b).1 ∨
      (f.lineCol a).1 = (f.lineCol b).1 ∧ (f.lineCol a).2 ≤ (f.lineCol b).2 := by
  have hpos := f.clamp_mono h
  have ha := f.startsLine_lineAt (f.clamp a)
  have hb := f.startsLine_lineAt (f.clamp b)
  obtain ⟨rs, hr⟩ := Utf8.exists_runes
    (f.input.drop (f.lineStarts.getD (f.lineAt (f.clamp a)) 0))
  obtain ⟨rs', hr'⟩ := Utf8.exists_runes
    (f.input.drop (f.lineStarts.getD (f.lineAt (f.clamp b)) 0))
  obtain hless | hline := Nat.lt_or_eq_of_le (newlinesBefore_mono (f := f) hpos)
  · rw [lineCol_eq ha hr, lineCol_eq hb hr']
    exact .inl (Nat.add_lt_add_left hless 1)
  · rw [lineCol_eq ha hr, lineCol_eq (ha.extend hpos hline) hr]
    exact .inr ⟨congrArg (1 + ·) hline, Nat.add_le_add_left (countP_mono _ hpos) 1⟩

theorem lineCol_ne {a b : Int} (hlt : f.clamp a < f.clamp b) (hb : f.IsBoundary (f.clamp b)) :
    f.lineCol a ≠ f.lineCol b := by
  intro he
  obtain ⟨start, rs, hs, hr, hend⟩ := hb
  have ha := f.startsLine_lineAt (f.clamp a)
  have hline : f.newlinesBefore (f.clamp a) = f.newlinesBefore (f.clamp b) := by
    rw [← lineAt_eq, ← lineAt_eq]
    exact Nat.succ.inj (congrArg Prod.fst he)
  have hs' : f.StartsLine start (f.clamp a) :=
    (ha.extend (Nat.le_of_lt hlt) hline).unique hs ▸ ha
  have hm : f.clamp b ∈ ends start rs := by
    refine hend.resolve_left fun heq ↦ ?_
    have := hs'.le
    omega
  rw [lineCol_eq hs hr, lineCol_eq hs' hr] at he
  have hcount : (ends start rs).countP (· ≤ f.clamp a) = (ends start rs).countP (· ≤ f.clamp b) :=
    Nat.add_left_cancel (congrArg Prod.snd he)
  exact absurd hcount (Nat.ne_of_lt (countP_lt hlt hm))

/-- Positions count what stands before an offset, they grow with it, and they are different for
different places between runes. -/
theorem positions_exact (f : File) :
    (∀ offset, ∃ start rs, f.StartsLine start (f.clamp offset) ∧ Runes (f.input.drop start) rs ∧
      f.lineCol offset = (1 + f.newlinesBefore (f.clamp offset),
        1 + (ends start rs).countP (· ≤ f.clamp offset))) ∧
    (∀ a b, a ≤ b → toLex (f.lineCol a) ≤ toLex (f.lineCol b)) ∧
    (∀ a b, f.IsBoundary (f.clamp a) → f.IsBoundary (f.clamp b) → f.clamp a ≠ f.clamp b →
      f.lineCol a ≠ f.lineCol b) := by
  refine ⟨fun offset ↦ ?_, fun a b h ↦ ?_, fun a b ha hb hne ↦ ?_⟩
  · have hs := f.startsLine_lineAt (f.clamp offset)
    obtain ⟨rs, hr⟩ := Utf8.exists_runes
      (f.input.drop (f.lineStarts.getD (f.lineAt (f.clamp offset)) 0))
    exact ⟨_, rs, hs, hr, lineCol_eq hs hr⟩
  · exact Prod.Lex.toLex_le_toLex.2 (f.lineCol_mono h)
  · obtain hlt | hlt := Nat.lt_or_gt_of_ne hne
    · exact lineCol_ne hlt hb
    · exact (lineCol_ne hlt ha).symm

/-- A character of three bytes, two bytes of a broken one, and a line of its own for the end. -/
example :
    let f : File := ⟨[], ascii "a" ++ [0xE4, 0xB8, 0xAD, 0xE4, 0xB8] ++ ascii "b\ny\n"⟩
    [0, 1, 3, 4, 5, 6, 7, 8, 9, 100].map f.lineCol =
      [(1, 1), (1, 2), (1, 2), (1, 3), (1, 4), (1, 5), (1, 6), (2, 1), (2, 2), (3, 1)] := by
  decide +kernel

end PZero.File
