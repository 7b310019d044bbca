import PZero.Proofs.Surface.Faithful
import PZero.Proofs.Token.Segment

namespace PZero.Surface

open Token (scan moved)

theorem scan_inOrder (f : File) : InOrder (scan f.input) := by
  have ht : Token.Tiling f 0 (scan f.input) := Token.tiling_scanAt (List.nil_append _).symm
  refine ⟨ht.ordered, fun t hm ↦ ?_⟩
  obtain ⟨before, he, hb⟩ := ht.last
  by_cases hk : t.kind = .endOfFile
  · have hlast : t = Token.endOfFile f := by
      rw [he, List.mem_append, List.mem_singleton] at hm
      exact hm.resolve_left fun h ↦ hb t h hk
    rw [hlast]
    exact Int.le_refl _
  · exact Int.le_of_lt (ht.nonempty t hm hk)

/-- A node covers its own tokens, and the nodes below it stand inside of it without overlap. -/
structure Node.Exact (f : File) (n : Node) : Prop where
  own : ∃ before own after, scan f.input = before ++ own ++ after ∧ own.map Token.word = n.words ∧
    Extends n.span own ∧ (scan (f.slice n.span)).map (moved n.span.start) =
      own ++ [⟨.endOfFile, [], n.span.stop, n.span.stop⟩]
  inside : ∀ m ∈ n.parts, n.span.start ≤ m.span.start ∧ m.span.stop ≤ n.span.stop
  apart : n.parts.Pairwise fun m m' ↦ m.span.stop ≤ m'.span.start

theorem Node.Placed.exact {f : File} {n : Node} {before own after : List Token}
    (h : n.Placed own) (hscan : scan f.input = before ++ own ++ after)
    (hfine : ∀ t ∈ own, t.kind ≠ .bad ∧ t.kind ≠ .endOfFile) : n.Exact f := by
  have ho : InOrder own := by
    have ho := scan_inOrder f
    rw [hscan] at ho
    exact ho.left.right
  obtain ⟨span, words, parts⟩ := n
  obtain ⟨hw, hs, hparts⟩ := h
  refine ⟨⟨before, own, after, hscan, hw, hs, ?_⟩, fun m hm ↦ Node.Placed.inside
    (n := .mk span words parts) ⟨hw, hs, hparts⟩ ho hm, hparts.pairwise ho⟩
  obtain ⟨first, hf, last, hl, rfl⟩ := hs
  exact Token.scan_slice hscan hfine hf hl

theorem parseFile_placed {f : File} {program : Program} (h : parseFile f = (program, [])) :
    ∃ ts after, scan f.input = ts ++ after ∧ Node.AllPlaced (program.map Decl.node) ts ∧
      ∀ t ∈ ts, t.kind ≠ .bad ∧ t.kind ≠ .endOfFile := by
  obtain ⟨ts, last, hscan, -, hwords, hplaced, hg⟩ := parseFile_reads h
  have ho := scan_inOrder f
  rw [hscan] at ho
  refine ⟨ts, [last], hscan, hplaced ho.left, fun t ht ↦ ?_⟩
  have hproper := program.words_proper hg t.word (hwords ▸ List.mem_map_of_mem ht)
  exact ⟨hproper.1, hproper.2.1⟩

/-- The spans in a tree that is read without an error cover exactly their nodes: each goes from the
first token of its node to the last, lies inside that of the node above and behind those of the
nodes before it, and covers a text that is scanned as the tokens of the node. -/
theorem parseFile_spans {f : File} {program : Program} (h : parseFile f = (program, [])) :
    (program.map Decl.node).Pairwise (fun n m ↦ n.span.stop ≤ m.span.start) ∧
      ∀ n ∈ Node.listAll (program.map Decl.node), n.Exact f := by
  obtain ⟨ts, after, hscan, hplaced, hfine⟩ := parseFile_placed h
  have ho := scan_inOrder f
  rw [hscan] at ho
  refine ⟨hplaced.pairwise ho.left, fun n hn ↦ ?_⟩
  obtain ⟨before, own, behind, rfl, hown⟩ := hplaced.of_mem_listAll n hn
  have hsplit : scan f.input = before ++ own ++ (behind ++ after) := by
    rw [hscan]
    simp only [List.append_assoc]
  refine hown.exact hsplit fun t ht ↦ hfine t ?_
  exact List.mem_append_right _ (List.mem_append_left _ ht)

/-- A text with a conditional expression, an `else` and a call whose arguments end it. -/
def nested : File :=
  ⟨ascii "nested.p0", ascii
    "const x = -1; /* a */ fun f(a: Int): Int \x7b if a > 1 a = f(a, (2)); else \x7b\x7d
  return a == 0 ? -a : f ( a ) ; \x7d"⟩

theorem nested_spans : ∃ program, parseFile nested = (program, []) ∧
    (Node.listAll (program.map Decl.node)).length = 30 ∧
      ∀ n ∈ Node.listAll (program.map Decl.node), n.Exact nested := by
  have hread : (parseFile nested).2 = [] ∧
      (Node.listAll ((parseFile nested).1.map Decl.node)).length = 30 := by decide +kernel
  have h : parseFile nested = ((parseFile nested).1, []) := by rw [← hread.1]
  exact ⟨_, h, hread.2, (parseFile_spans h).2⟩

end PZero.Surface
