import PZero.Proofs.Diagnostic.Order
import PZero.Proofs.Surface.Accepts
import PZero.Proofs.Surface.Parts
import PZero.Proofs.Surface.Spans

namespace PZero.Surface

open Reading
open Token (Closed scan)

variable {bound : Nat} {r : Reader}

section Declarations

def Decl.isFun : Decl → Bool
  | .var .. => false
  | .fun_ .. => true

/-- Whatever reading gives has a property with the reader that is left. -/
def Yields {α : Type} (m : Reading α) (P : α → Reader → Prop) : Prop := ∀ r, P (m r).1 (m r).2

namespace Yields

variable {α β : Type} {m m' n n' : Reading α} {f : α → Reading β} {P : α → Reader → Prop}
  {Q : β → Reader → Prop}

theorem pure {b : β} (h : ∀ r, Q b r) : Yields (pure b) Q := h

theorem bind (hf : ∀ a, Yields (f a) Q) : Yields (m >>= f) Q := fun r ↦ hf (m r).1 (m r).2

theorem get {f : Reader → Reading β} (h : ∀ r, Q (f r r).1 (f r r).2) : Yields (get >>= f) Q := h

theorem after (hm : Yields m P) (hf : ∀ a r, P a r → Q (f a r).1 (f a r).2) :
    Yields (m >>= f) Q :=
  fun r ↦ hf _ _ (hm r)

theorem ite {c : Prop} [Decidable c] (h : c → Yields n P) (h' : ¬c → Yields n' P) :
    Yields (if c then n else n') P := by
  split
  · exact h ‹_›
  · exact h' ‹_›

theorem ite_bind {c : Prop} [Decidable c] (hf : ∀ a, Yields (f a) Q) :
    Yields (if c then m >>= f else m' >>= f) Q := by
  split <;> exact .bind hf

end Yields

theorem readVar_yields (isConst : Bool) :
    Yields (readVar isConst) fun d _ ↦ ∀ x, d = some x → x.isFun = false := by
  rw [readVar]
  refine .bind fun start ↦ .bind fun name ↦ .ite (fun _ ↦ .pure fun _ x hx ↦ by cases hx) fun _ ↦ ?_
  refine .bind fun _ ↦ .bind fun value ↦ .bind fun semi ↦ .pure fun _ x hx ↦ ?_
  obtain ⟨v, -, rfl⟩ := Option.map_eq_some_iff.1 hx
  rfl

theorem readFun_yields (bound : Nat) :
    Yields (readFun bound) fun d r ↦ d ≠ none → r.failed = false := by
  have hnone : Yields (pure none) fun (d : Option Decl) r ↦ d ≠ none → r.failed = false :=
    .pure fun _ h ↦ absurd rfl h
  have hlast : ∀ d : Decl, Yields (do if (← get).failed then return none else return some d)
      fun d r ↦ d ≠ none → r.failed = false := by
    refine fun d ↦ .get fun r ↦ ?_
    split
    · exact fun h ↦ absurd rfl h
    · exact fun _ ↦ Bool.eq_false_iff.2 ‹_›
  rw [readFun]
  refine .bind fun start ↦ .bind fun name ↦ .ite (fun _ ↦ hnone) fun _ ↦ .bind fun _ ↦
    .bind fun _ ↦ .ite_bind fun params ↦ .bind fun _ ↦ .bind fun _ ↦ .ite_bind fun type ↦
    .bind fun _ ↦ .bind fun body ↦ .bind fun _ ↦ .bind fun _ ↦ .ite (fun _ ↦ hnone) fun _ ↦ ?_
  exact .bind fun result ↦ .bind fun close ↦ hlast _

theorem readDecl_yields (bound : Nat) :
    Yields (readDecl bound) fun d r ↦ ∀ x, d = some x → x.isFun = true → r.failed = false := by
  have hrest : ∀ {m : Reading (Option Decl)},
      Yields m (fun d r ↦ ∀ x, d = some x → x.isFun = true → r.failed = false) →
      Yields (do
        let decl ← m
        if (← get).failed then skipToFun bound
        return decl) fun d r ↦ ∀ x, d = some x → x.isFun = true → r.failed = false := by
    refine fun hm ↦ .after hm fun d r hd x ↦ ?_
    change ((if r.failed = true then _ else _ : Reading (Option Decl)) r).1 = some x → _ →
      ((if r.failed = true then _ else _ : Reading (Option Decl)) r).2.failed = false
    split
    · rename_i hf
      exact fun hx hfun ↦ absurd ((hd x hx hfun).symm.trans hf) Bool.false_ne_true
    · exact hd x
  have hvar : ∀ isConst, Yields (readVar isConst) fun d r ↦
      ∀ x, d = some x → x.isFun = true → r.failed = false := fun isConst r x hx hfun ↦
    absurd ((readVar_yields isConst r x hx).symm.trans hfun) Bool.false_ne_true
  rw [readDecl]
  refine .bind fun _ ↦ .bind fun tok ↦ ?_
  split
  · exact hrest (hvar true)
  · exact hrest (hvar false)
  · exact hrest fun r x hx _ ↦ readFun_yields bound r (hx ▸ Option.some_ne_none x)
  · exact .bind fun _ ↦ .bind fun _ ↦ hrest (.pure fun _ x hx ↦ by cases hx)

theorem readProgram_succ (bound : Nat) (r : Reader) : readProgram (bound + 1) r =
    if r.current.kind = .endOfFile then ([], r)
    else ((readDecl bound r).1.toList ++ (readProgram bound (readDecl bound r).2).1,
      (readProgram bound (readDecl bound r).2).2) := by
  rw [readProgram]
  change (if _ then _ else _ : Reading Program) r = _
  split <;> rfl

theorem readDecl_declares (hr : r.Closed) (hk : r.current.kind ≠ .endOfFile)
    (hb : 8 * r.ahead.length ≤ bound) : Declares r (readDecl bound r).2 := by
  obtain ⟨t, rfl⟩ : ∃ t : Twins True, t.one = r := ⟨.refl r hr, rfl⟩
  exact (runs_same (readDecl_runs bound bound hk (le_min hb hb))).2

/-- What holds at the end of the file, and before a declaration if it holds behind it, holds of all
that is read. -/
theorem readProgram_induction {P : Reader → Program → Reader → Prop}
    (hend : ∀ r, r.current.kind = .endOfFile → P r [] r)
    (hdecl : ∀ bound r program last, Closed r.tokens → r.current.kind ≠ .endOfFile →
      Declares r (readDecl bound r).2 → P (readDecl bound r).2 program last →
        P r ((readDecl bound r).1.toList ++ program) last)
    (hclosed : Closed r.tokens) (hb : 8 * r.ahead.length + 1 ≤ bound) :
    P r (readProgram bound r).1 (readProgram bound r).2 := by
  induction bound generalizing r with
  | zero => omega
  | succ bound ih =>
    rw [readProgram_succ]
    split
    · exact hend r ‹_›
    · rename_i hk
      have hd := readDecl_declares (.of_closed hclosed) hk (show _ ≤ bound by omega)
      have hless : (readDecl bound r).2.ahead.length < r.ahead.length := hd.less
      exact hdecl bound r _ _ hclosed hk hd (ih (hclosed.of_suffix hd.suffix) (by omega))

end Declarations

section Reports

def starts (tokens : List Token) : Nat := tokens.countP (·.kind = .funKw)

theorem starts_le {tokens tokens' : List Token} (h : tokens <:+ tokens') :
    starts tokens ≤ starts tokens' := h.sublist.countP_le

/-- Errors at tokens further and further on, at most one for each function and one before. -/
structure Located (tokens : List Token) (errors : List ParseError) (places : List Token) :
    Prop where
  told : errors.map ParseError.place = places.map Token.span
  onward : places.Sublist tokens
  few : places.length ≤ 1 + starts tokens

/-- The errors that are still told. Where the reader is at a function or at the end of the file,
there is none before the next token. -/
structure Reports (r : Reader) (errors : List ParseError) (places : List Token) : Prop extends
    Located r.tokens errors places where
  stopped : r.current.kind = .endOfFile ∨ r.current.kind = .funKw →
    places.Sublist r.ahead ∧ places.length ≤ starts r.tokens

/-- A declaration puts at most one error in front, and then the reader has gone on to a function or
to the end of the file. -/
theorem Reports.behind {r r' : Reader} {more : List ParseError} {places : List Token}
    (h : Reports r' more places) (ht : Within r r') (hf : r.failed = false)
    (hstop : r'.failed = true → r'.current.kind = .endOfFile ∨ r'.current.kind = .funKw) :
    ∃ more' places', r'.errors ++ more = r.errors ++ more' ∧ Located r.tokens more' places' := by
  rcases ht.told hf with ⟨-, he⟩ | ⟨hf', e, t, rest, he, hp, hat, hrest⟩
  · have := starts_le ht.suffix
    have := h.few
    exact ⟨more, places, by rw [he], h.told, h.onward.trans ht.suffix.sublist, by omega⟩
  · -- the reader stands at a `fun` or at the end, where the next error cannot be
    obtain ⟨honward, hfew⟩ := h.stopped (hstop hf')
    have hahead : r'.ahead.Sublist rest := hrest.sublist.tail
    have := starts_le ht.suffix
    refine ⟨e :: more, t :: places, by simp [he], ?_, ?_, ?_⟩
    · rw [List.map_cons, List.map_cons, hp, h.told]
    · exact ((honward.trans hahead).cons_cons t).trans hat.sublist
    · rw [List.length_cons]
      omega

theorem Located.reports {errors : List ParseError} {places : List Token}
    (h : Located r.ahead errors places) (hk : r.current.kind = .funKw) :
    Reports r errors places := by
  have hstarts : starts r.tokens = 1 + starts r.ahead := by
    rw [starts, Reader.tokens, List.countP_cons_of_pos (by simpa using hk), Nat.add_comm]
    rfl
  have hfew := h.few
  exact ⟨⟨h.told, h.onward.cons _, by omega⟩, fun _ ↦ ⟨h.onward, by omega⟩⟩

theorem advance_restarted (hclosed : Closed r.tokens) (hk : r.current.kind ≠ .endOfFile) :
    (advance r.restarted).2.tokens = r.ahead ∧ (advance r.restarted).2.failed = false ∧
      (advance r.restarted).2.errors = r.errors := by
  have hready : r.restarted.Ready := hclosed
  obtain ⟨next, ahead, ha, -⟩ := hready.ahead hk
  rw [advance_eq, ha]
  exact ⟨ha.symm, rfl, rfl⟩

theorem Reports.before {r r' : Reader} {more : List ParseError} {places : List Token}
    (h : Reports r' more places) (hclosed : Closed r.tokens) (hk : r.current.kind ≠ .endOfFile)
    (hd : Declares r r') :
    ∃ more' places', r'.errors ++ more = r.errors ++ more' ∧ Reports r more' places' := by
  by_cases hfun : r.current.kind = .funKw
  · obtain ⟨htokens, hf, herrors⟩ := advance_restarted hclosed hk
    obtain ⟨more', places', he, hlocated⟩ := h.behind (hd.behind hfun) hf hd.stops
    rw [herrors] at he
    rw [htokens] at hlocated
    exact ⟨more', places', he, hlocated.reports hfun⟩
  · obtain ⟨more', places', he, hlocated⟩ := h.behind hd.toWithin rfl hd.stops
    exact ⟨more', places', he, hlocated, fun h ↦ (h.elim hk hfun).elim⟩

theorem readProgram_reports (bound : Nat) (r : Reader) (hclosed : Closed r.tokens)
    (hb : 8 * r.ahead.length + 1 ≤ bound) :
    ∃ more places, (readProgram bound r).2.errors = r.errors ++ more ∧ Reports r more places := by
  refine readProgram_induction (P := fun r _ last ↦
    ∃ more places, last.errors = r.errors ++ more ∧ Reports r more places) ?_ ?_ hclosed hb
  · intro r _
    exact ⟨[], [], (List.append_nil _).symm, ⟨rfl, List.nil_sublist _, Nat.zero_le _⟩,
      fun _ ↦ ⟨List.nil_sublist _, Nat.zero_le _⟩⟩
  · rintro bound r program last hclosed hk hd ⟨more, places, he, hreports⟩
    rw [he]
    exact hreports.before hclosed hk hd

end Reports

section Functions

/-- A declaration stands in the tokens without an error: some of them, one behind the other, are
its words. -/
def Stands (tokens : List Token) (d : Decl) : Prop :=
  ∃ before own after, tokens = before ++ own ++ after ∧ own.map Token.word = d.words ∧
    d.Grammatical ∧ (InOrder own → Extends d.span own)

theorem Stands.of_suffix {tokens tokens' : List Token} {d : Decl} (h : Stands tokens d)
    (hs : tokens <:+ tokens') : Stands tokens' d := by
  obtain ⟨before, own, after, rfl, hd⟩ := h
  obtain ⟨front, rfl⟩ := hs
  exact ⟨front ++ before, own, after, by simp only [List.append_assoc], hd⟩

theorem readDecl_stands {d : Decl} (hclosed : Closed r.tokens)
    (hd : Declares r (readDecl bound r).2)
    (h : (readDecl bound r).1 = some d) (hfun : d.isFun = true) : Stands r.tokens d := by
  have hok : (readDecl bound r).2.failed = false := readDecl_yields bound r d h hfun
  have herrors : (readDecl bound r).2.errors = r.errors := by
    rcases hd.told rfl with ⟨-, he⟩ | ⟨hf, -⟩
    · exact he
    · exact absurd (hok.symm.trans hf) Bool.false_ne_true
  obtain ⟨-, -, hens⟩ := readDecl_ensures bound r.restarted _ _ rfl hclosed
  obtain ⟨-, x, hx, ⟨own, ⟨htook, -⟩, hwords, hplaced⟩, hgrammatical⟩ := hens rfl herrors
  obtain rfl := Option.some_inj.1 (hx.symm.trans h)
  exact ⟨[], own, _, htook, hwords, hgrammatical, fun ho ↦ (hplaced ho).1⟩

theorem readProgram_stands (bound : Nat) (r : Reader) (hclosed : Closed r.tokens)
    (hb : 8 * r.ahead.length + 1 ≤ bound) :
    ∀ d ∈ (readProgram bound r).1, d.isFun = true → Stands r.tokens d := by
  refine readProgram_induction (P := fun r program _ ↦
    ∀ d ∈ program, d.isFun = true → Stands r.tokens d) ?_ ?_ hclosed hb
  · exact fun _ _ ↦ List.forall_mem_nil _
  · intro bound r program last hclosed hk hdecl hbehind d hd hfun
    rcases List.mem_append.1 hd with hd | hd
    · exact readDecl_stands hclosed hdecl (Option.mem_toList.1 hd) hfun
    · exact (hbehind d hd hfun).of_suffix hdecl.suffix

end Functions

section Files

theorem parse_single {d : Decl} (h : d.Grammatical) {tokens : List Token}
    (hw : tokens.map Token.word = d.words ++ [(.endOfFile, [])]) :
    ∃ d', parse tokens = ([d'], []) ∧ d'.bare = d.bare := by
  have hsingle : Program.Grammatical [d] := List.forall_mem_singleton.2 h
  have hwords : Program.words [d] = d.words := List.append_nil _
  obtain ⟨program, hp, hbare⟩ := parse_of_words hsingle (hwords ▸ hw)
  obtain ⟨d', rfl, hd'⟩ := List.map_eq_singleton_iff.1 hbare
  exact ⟨d', hp, hd'⟩

/-- A declaration is read from its own tokens, and from the text that they cover, without an error
and as it is read with the rest of the file. -/
structure Decl.Alone (f : File) (d : Decl) : Prop where
  tokens : ∃ before own after, scan f.input = before ++ own ++ after ∧
    own.map Token.word = d.words ∧ Extends d.span own ∧
      ∃ d', parse (own ++ [⟨.endOfFile, [], d.span.stop, d.span.stop⟩]) = ([d'], []) ∧
        d'.bare = d.bare
  text : ∃ d', parseFile ⟨f.name, f.slice d.span⟩ = ([d'], []) ∧ d'.bare = d.bare

theorem Stands.alone {f : File} {d : Decl} (h : Stands (scan f.input) d) : d.Alone f := by
  obtain ⟨before, own, after, hscan, hwords, hgrammatical, hspan⟩ := h
  have ho : InOrder own := by
    have ho := scan_inOrder f
    rw [hscan] at ho
    exact ho.left.right
  obtain ⟨first, hfirst, last, hlast, hextent⟩ := hspan ho
  have hfine : ∀ t ∈ own, t.kind ≠ .bad ∧ t.kind ≠ .endOfFile := by
    intro t ht
    have hmem : t.word ∈ Program.words [d] := by
      rw [Program.words, List.flatMap_singleton, ← hwords]
      exact List.mem_map_of_mem ht
    have hproper := Program.words_proper [d] (List.forall_mem_singleton.2 hgrammatical) _ hmem
    exact ⟨hproper.1, hproper.2.1⟩
  have hend : ∀ stop, (own ++ [(⟨.endOfFile, [], stop, stop⟩ : Token)]).map Token.word =
      d.words ++ [(.endOfFile, [])] := by
    intro stop
    rw [List.map_append, hwords]
    rfl
  have hslice := Token.scan_slice hscan hfine hfirst hlast
  refine ⟨⟨before, own, after, hscan, hwords, ⟨first, hfirst, last, hlast, hextent⟩,
    parse_single hgrammatical (hend _)⟩, parse_single hgrammatical ?_⟩
  rw [hextent, ← hend last.span.stop, ← hslice, List.map_map]
  rfl

theorem parseFile_reports (f : File) :
    (∃ places, Located (scan f.input) (parseFile f).2 places) ∧
      ∀ d ∈ (parseFile f).1, d.isFun = true → Stands (scan f.input) d := by
  obtain ⟨first, rest, hscan⟩ := scan_cons f
  have hclosed := Token.scan_closed f.input
  rw [parseFile_eq hscan le_rfl]
  have hbound : 8 * rest.length + 1 ≤ 8 * (scan f.input).length := by
    rw [hscan, List.length_cons]
    omega
  generalize 8 * (scan f.input).length = bound at hbound ⊢
  rw [hscan] at hclosed ⊢
  obtain ⟨more, places, he, hreports⟩ :=
    readProgram_reports _ ⟨first, first, rest, false, []⟩ hclosed hbound
  rw [he]
  exact ⟨⟨places, hreports.toLocated⟩, readProgram_stands _ _ hclosed hbound⟩

theorem Located.inOrder {f : File} {errors : List ParseError} {places : List Token}
    (h : Located (scan f.input) errors places) :
    (errors.map (·.diagnostic f)).Pairwise fun d d' ↦ d.le d' = true := by
  have hspans : (errors.map ParseError.place).Pairwise fun s s' ↦ s.start ≤ s'.start := by
    rw [h.told, List.pairwise_map]
    obtain ⟨happart, hwide⟩ := scan_inOrder f
    refine (happart.imp_of_mem fun ht _ hle ↦ ?_).sublist h.onward
    exact Int.le_trans (hwide _ ht) hle
  rw [List.pairwise_map] at hspans ⊢
  exact hspans.imp fun hle ↦ Diagnostic.located_le f hle _ _ _ _

/-- The errors that are told of a file are at tokens further and further on, so they are printed in
the order in which they were found. There is at most one for each `fun` and one before. Every
function in the tree, whatever errors there are elsewhere, is read without an error and as the same
function from its own tokens alone. -/
theorem parseFile_recovers (f : File) :
    (∃ places : List (Fin (scan f.input).length), places.Pairwise (· < ·) ∧
      (parseFile f).2.map ParseError.place = places.map fun i ↦ (scan f.input)[i].span) ∧
    (((parseFile f).2.map (·.diagnostic f)).Pairwise fun d d' ↦ d.le d' = true) ∧
    Diagnostic.renderAll ((parseFile f).2.map (·.diagnostic f)) =
      ((parseFile f).2.map (·.diagnostic f)).flatMap Diagnostic.render ∧
    (parseFile f).2.length ≤ 1 + (scan f.input).countP (·.kind = .funKw) ∧
    ∀ d ∈ (parseFile f).1, d.isFun = true → d.Alone f := by
  obtain ⟨⟨places, hlocated⟩, hstands⟩ := parseFile_reports f
  have horder := hlocated.inOrder
  have hlength := congrArg List.length hlocated.told
  rw [List.length_map, List.length_map] at hlength
  obtain ⟨indices, hplaces, hincreasing⟩ := List.sublist_eq_map_getElem hlocated.onward
  refine ⟨⟨indices, hincreasing, ?_⟩, horder, Diagnostic.renderAll_eq horder,
    hlength ▸ hlocated.few, fun d hd hfun ↦ (hstands d hd hfun).alone⟩
  rw [hlocated.told, hplaces, List.map_map]
  rfl

/-- A text with errors in front of, inside and behind a function without errors. -/
def torn : File := ⟨ascii "torn.p0", ascii "x fun fun f()\x7b\x7d fun"⟩

theorem torn_recovers : (parseFile torn).2.length = 3 ∧
    ∃ d ∈ (parseFile torn).1, d.isFun = true ∧ d.Alone torn := by
  have hread : (parseFile torn).2.length = 3 ∧
      ∃ d ∈ (parseFile torn).1, d.isFun = true := by decide +kernel
  obtain ⟨hlength, d, hd, hfun⟩ := hread
  exact ⟨hlength, d, hd, hfun, (parseFile_recovers torn).2.2.2.2 d hd hfun⟩

end Files

end PZero.Surface
