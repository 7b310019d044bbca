import Mathlib.Data.List.Lattice
import PZero.Build
import PZero.Proofs.Path.Clean

namespace PZero.Build

open PZero.Path (clean Opens IsFileName route)

/-- The files that are made on the way to an artifact. -/
def intermediates (mode : Mode) (base : Bytes) : List Bytes :=
  (base ++ ascii ".ll") :: if mode = .llvm then [base ++ ascii ".prog.bc"] else []

/-- The files that are written for the sources of a base. -/
def written (mode : Mode) (base : Bytes) : List Bytes :=
  mode.artifact base :: intermediates mode base

/-- Apart from the code of the library, the calls of the tools write these files and no others. The
text of the module is written before them. -/
theorem toolCalls_written {scratch base : Bytes} {s : Settings} {calls : List (Bytes × List Bytes)}
    (h : toolCalls scratch base s = .ok calls) :
    (∀ call ∈ calls, ∃ out, call.2.getLast? = some out ∧
      (out ∈ written s.mode base ∨ out = Path.below scratch (ascii "p0lib.bc"))) ∧
    ∀ path ∈ written s.mode base,
      path = base ++ ascii ".ll" ∨ ∃ call ∈ calls, call.2.getLast? = some path := by
  unfold toolCalls at h
  split at h
  · rename_i hm
    cases h
    simp [hm, written, intermediates, Mode.artifact]
  · cases h
  · rename_i hm _
    have hm' : s.mode ≠ .llvm := hm
    cases h
    simp [hm', written, intermediates, Mode.artifact]

theorem reserve_source {outDir : Bytes} {taken : List (Bytes × Bytes)} {sources : List Bytes}
    {i : Nat} {r : Result} (h : (reserve outDir taken sources)[i]? = some r) :
    sources[i]? = some r.source := by
  induction sources generalizing taken i with
  | nil => simp [reserve] at h
  | cons source sources ih =>
    simp only [reserve] at h
    cases i with
    | zero => split at h <;> cases h <;> rfl
    | succ i => split at h <;> exact ih h

theorem reserve_failure {outDir : Bytes} {taken : List (Bytes × Bytes)} {sources : List Bytes}
    {i : Nat} {r : Result} {failure : Failure} (h : (reserve outDir taken sources)[i]? = some r)
    (hf : r.failure = some failure) :
    ∃ source base previous, failure = .collision source base previous := by
  induction sources generalizing taken i with
  | nil => simp [reserve] at h
  | cons source sources ih =>
    simp only [reserve] at h
    cases i with
    | zero =>
      split at h <;> cases h
      · cases hf
        exact ⟨_, _, _, rfl⟩
      · cases hf
    | succ i => split at h <;> exact ih h

theorem reserve_free {outDir : Bytes} {taken : List (Bytes × Bytes)} {sources : List Bytes}
    {i : Nat} {r : Result} (h : (reserve outDir taken sources)[i]? = some r)
    (hf : r.failure = none) : taken.lookup (outputKey r.source outDir) = none := by
  induction sources generalizing taken i with
  | nil => simp [reserve] at h
  | cons source sources ih =>
    simp only [reserve] at h
    cases i with
    | zero =>
      split at h
      · cases h
        cases hf
      · rename_i hn
        cases h
        exact hn
    | succ i =>
      split at h
      · exact ih h
      · have hl := ih h
        rw [List.lookup_cons] at hl
        split at hl
        · cases hl
        · exact hl

theorem reserve_apart {outDir : Bytes} {taken : List (Bytes × Bytes)} {sources : List Bytes}
    {i j : Nat} {r r' : Result} (hij : i < j) (h : (reserve outDir taken sources)[i]? = some r)
    (h' : (reserve outDir taken sources)[j]? = some r') (hf : r.failure = none)
    (hf' : r'.failure = none) : outputKey r.source outDir ≠ outputKey r'.source outDir := by
  induction sources generalizing taken i j with
  | nil => simp [reserve] at h
  | cons source sources ih =>
    simp only [reserve] at h h'
    cases j with
    | zero => omega
    | succ j =>
      cases i with
      | zero =>
        split at h
        · cases h
          cases hf
        · rename_i hn
          simp only [hn] at h'
          cases h
          have hl := reserve_free h' hf'
          intro he
          rw [← he] at hl
          simp [Result.new] at hl
      | succ i =>
        have hij : i < j := by omega
        split at h
        · rename_i previous hp
          simp only [hp] at h'
          exact ih hij h h'
        · rename_i hn
          simp only [hn] at h'
          exact ih hij h h'

theorem buildAll_failed {w : World} {s : Settings} {rs : List Result} {i : Nat} {r : Result}
    (h : rs[i]? = some r) (hf : r.failure.isSome = true) : (buildAll w s rs).2[i]? = some r := by
  induction rs generalizing w i with
  | nil => simp at h
  | cons r' rs ih =>
    cases i with
    | zero =>
      cases h
      simp [buildAll, hf]
    | succ i => exact ih h

theorem length_reserve (outDir : Bytes) (taken : List (Bytes × Bytes)) (sources : List Bytes) :
    (reserve outDir taken sources).length = sources.length := by
  induction sources generalizing taken with
  | nil => rfl
  | cons source sources ih =>
    simp only [reserve]
    split <;> rw [List.length_cons, List.length_cons, ih]

theorem compileFile_failed {d : Disk} {path : Bytes} {failure : Failure}
    (h : compileFile d path = .failed failure) (name base previous : Bytes) :
    failure ≠ .collision name base previous := by
  unfold compileFile at h
  rintro rfl
  split at h
  · cases h
  · split at h
    · cases h
    · split at h <;> cases h

theorem produce_failure {w : World} {s : Settings} {r : Result} (h : r.failure = none)
    (name base previous : Bytes) :
    (produce w s r).2.failure ≠ some (.collision name base previous) := by
  unfold produce
  split
  · rename_i f hf
    intro he
    exact compileFile_failed hf name base previous (Option.some.inj he)
  · simp [h]
  · split
    · simp [h]
    · split
      · simp
      · simp only [ne_eq, Option.map_eq_some_iff, not_exists, not_and]
        intro _ _
        exact nofun

theorem buildOne_failure {w : World} {s : Settings} {r : Result} (h : r.failure = none)
    (name base previous : Bytes) :
    (buildOne w s r).2.failure ≠ some (.collision name base previous) := by
  unfold buildOne
  split
  · unfold checkFile
    split
    · simp
    · split <;> simp [h]
  · exact produce_failure h name base previous
  · dsimp only
    split
    · refine produce_failure ?_ name base previous
      exact h
    · split
      · simp
      · refine produce_failure ?_ name base previous
        exact h
      · simp [h]

theorem buildAll_built {w : World} {s : Settings} {rs : List Result} {i : Nat} {r : Result}
    (h : rs[i]? = some r) (hf : r.failure = none) : ∃ r', (buildAll w s rs).2[i]? = some r' ∧
      ∀ name base previous, r'.failure ≠ some (.collision name base previous) := by
  induction rs generalizing w i with
  | nil => simp at h
  | cons r' rs ih =>
    cases i with
    | zero =>
      cases h
      refine ⟨(buildOne w s r).2, ?_, buildOne_failure hf⟩
      simp [buildAll, hf]
    | succ i => exact ih h

/-- The source at a place of a list that is built, not rejected for its outputs. -/
structure Accepted (w : World) (s : Settings) (sources : List Bytes) (i : Nat) (source : Bytes) :
    Prop where
  source : sources[i]? = some source
  result : ∃ r, (build w s sources).2[i]? = some r ∧
    ∀ name base previous, r.failure ≠ some (.collision name base previous)

theorem accepted_iff {w : World} {s : Settings} (hs : s.stage = .artifact) {sources : List Bytes}
    {i : Nat} {source : Bytes} : Accepted w s sources i source ↔
      ∃ r, (reserve s.outDir [] sources)[i]? = some r ∧ r.failure = none ∧ r.source = source := by
  have hplan : build w s sources = buildAll w s (reserve s.outDir [] sources) := by
    simp only [build, plan, hs, if_true]
  constructor
  · rintro ⟨hsource, r', hr', hnot⟩
    have hi : i < (reserve s.outDir [] sources).length := by
      rw [length_reserve]
      exact (List.getElem?_eq_some_iff.1 hsource).1
    have hr := List.getElem?_eq_getElem hi
    generalize (reserve s.outDir [] sources)[i] = r at hr
    refine ⟨r, hr, ?_, Option.some.inj ((reserve_source hr).symm.trans hsource)⟩
    cases hf : r.failure with
    | none => rfl
    | some failure =>
      obtain ⟨name, base, previous, rfl⟩ := reserve_failure hr hf
      rw [hplan, buildAll_failed hr (by rw [hf]; rfl)] at hr'
      cases hr'
      exact absurd hf (hnot name base previous)
  · rintro ⟨r, hr, hf, rfl⟩
    refine ⟨reserve_source hr, ?_⟩
    rw [hplan]
    exact buildAll_built hr hf

variable {w : World} {s : Settings} {sources : List Bytes}

theorem Accepted.base_ne (hs : s.stage = .artifact) {i j : Nat} {a b : Bytes} (hij : i ≠ j)
    (ha : Accepted w s sources i a) (hb : Accepted w s sources j b) :
    clean (base a s.outDir) ≠ clean (base b s.outDir) := by
  obtain ⟨r, hr, hf, rfl⟩ := (accepted_iff hs).1 ha
  obtain ⟨r', hr', hf', rfl⟩ := (accepted_iff hs).1 hb
  rcases Nat.lt_or_gt_of_ne hij with hlt | hlt
  · exact reserve_apart hlt hr hr' hf hf'
  · exact (reserve_apart hlt hr' hr hf' hf).symm

theorem isEnding_text : Path.IsEnding (ascii ".ll") := ⟨by decide, by decide⟩

theorem isEnding_code : Path.IsEnding (ascii ".bc") := ⟨by decide, by decide⟩

theorem isEnding_moduleCode : Path.IsEnding (ascii ".prog.bc") := ⟨by decide, by decide⟩

theorem isEnding_source : Path.IsEnding sourceExtension := ⟨by decide, by decide⟩

theorem artifact_ne {mode : Mode} {b b' : Bytes} (h : clean b ≠ clean b') :
    clean (mode.artifact b) ≠ clean (mode.artifact b') := by
  unfold Mode.artifact
  split
  · exact fun he ↦ h (Path.clean_of_clean_append isEnding_code he)
  · exact h

theorem mem_intermediates {mode : Mode} {b path : Bytes} : path ∈ intermediates mode b ↔
    path = b ++ ascii ".ll" ∨ mode = .llvm ∧ path = b ++ ascii ".prog.bc" := by
  unfold intermediates
  split <;> simp_all

theorem intermediates_ne {mode : Mode} {b b' path path' : Bytes} (h : clean b ≠ clean b')
    (hp : path ∈ intermediates mode b) (hp' : path' ∈ intermediates mode b') :
    clean path ≠ clean path' := by
  rcases mem_intermediates.1 hp with rfl | ⟨-, rfl⟩ <;>
    rcases mem_intermediates.1 hp' with rfl | ⟨-, rfl⟩
  · exact fun he ↦ h (Path.clean_of_clean_append isEnding_text he)
  · exact Path.clean_append_ne isEnding_text isEnding_moduleCode (by decide) b b'
  · exact Path.clean_append_ne isEnding_moduleCode isEnding_text (by decide) b b'
  · exact fun he ↦ h (Path.clean_of_clean_append isEnding_moduleCode he)

/-- Two sources that are both built share no output, unless the artifact of one is an intermediate
file of the other. -/
theorem written_disjoint_iff (hs : s.stage = .artifact) {i j : Nat} {a b : Bytes} (hij : i ≠ j)
    (ha : Accepted w s sources i a) (hb : Accepted w s sources j b) :
    ((written s.mode (base a s.outDir)).map clean).Disjoint
        ((written s.mode (base b s.outDir)).map clean) ↔
      clean (s.mode.artifact (base a s.outDir)) ∉
          (intermediates s.mode (base b s.outDir)).map clean ∧
        clean (s.mode.artifact (base b s.outDir)) ∉
          (intermediates s.mode (base a s.outDir)).map clean := by
  have hne := Accepted.base_ne hs hij ha hb
  generalize base a s.outDir = p at hne ⊢
  generalize base b s.outDir = q at hne ⊢
  have hmid : ((intermediates s.mode p).map clean).Disjoint
      ((intermediates s.mode q).map clean) := by
    intro x hx hy
    obtain ⟨path, hp, rfl⟩ := List.mem_map.1 hx
    obtain ⟨path', hp', he⟩ := List.mem_map.1 hy
    exact intermediates_ne hne hp hp' he.symm
  have hart := @artifact_ne s.mode p q hne
  simp only [written, List.map_cons, List.disjoint_cons_left, List.disjoint_cons_right,
    List.mem_cons, not_or]
  constructor
  · rintro ⟨⟨-, h'⟩, h, -⟩
    exact ⟨h, h'⟩
  · rintro ⟨h, h'⟩
    exact ⟨⟨hart.symm, h'⟩, h, hmid⟩

def nowhere : World := ⟨⟨[], [], 0⟩, fun _ ↦ none, fun _ ↦ none, []⟩

/-- Native artifacts, next to their sources. -/
def nextToSource : Settings := ⟨.artifact, true, [], .native, true, Tools.usual⟩

theorem text_is_artifact :
    Accepted nowhere nextToSource [ascii "a.p0", ascii "a.ll.p0"] 0 (ascii "a.p0") ∧
      Accepted nowhere nextToSource [ascii "a.p0", ascii "a.ll.p0"] 1 (ascii "a.ll.p0") ∧
      ¬((written .native (base (ascii "a.p0") [])).map clean).Disjoint
        ((written .native (base (ascii "a.ll.p0") [])).map clean) := by
  have ha : Accepted nowhere nextToSource [ascii "a.p0", ascii "a.ll.p0"] 0 (ascii "a.p0") :=
    (accepted_iff rfl).2 ⟨.new (ascii "a.p0"), rfl, rfl, rfl⟩
  have hb : Accepted nowhere nextToSource [ascii "a.p0", ascii "a.ll.p0"] 1 (ascii "a.ll.p0") :=
    (accepted_iff rfl).2 ⟨.new (ascii "a.ll.p0"), rfl, rfl, rfl⟩
  refine ⟨ha, hb, fun h ↦ ?_⟩
  obtain ⟨-, hfree⟩ := (written_disjoint_iff rfl (by decide) ha hb).1 h
  exact hfree (by decide)

theorem source_ne_append {source ending : Bytes} (h : Path.extension source = sourceExtension)
    (he : Path.IsEnding ending) (hl : sourceExtension.getLast? ≠ ending.getLast?) (b : Bytes) :
    clean (b ++ ending) ≠ clean source := by
  obtain ⟨front, stem, hsource, -⟩ := Path.exists_extension source
  rw [h, ← List.append_assoc] at hsource
  rw [hsource]
  exact (Path.clean_append_ne isEnding_source he hl _ b).symm

theorem intermediates_ne_source {mode : Mode} {b path source : Bytes}
    (h : Path.extension source = sourceExtension) (hp : path ∈ intermediates mode b) :
    clean path ≠ clean source := by
  rcases mem_intermediates.1 hp with rfl | ⟨-, rfl⟩
  · exact source_ne_append h isEnding_text (by decide) b
  · exact source_ne_append h isEnding_moduleCode (by decide) b

theorem artifact_eq_source_iff {mode : Mode} {b source : Bytes}
    (h : Path.extension source = sourceExtension) :
    clean (mode.artifact b) = clean source ↔ mode ≠ .llvm ∧ clean b = clean source := by
  unfold Mode.artifact
  split
  · rename_i hm
    simp [hm, source_ne_append h isEnding_code (by decide) b]
  · rename_i hm
    simp [hm]

theorem extension_eq_iff {path : Bytes} :
    Path.extension path = sourceExtension ↔ ∃ rest, path = rest ++ sourceExtension := by
  constructor
  · intro h
    obtain ⟨front, stem, hpath, -⟩ := Path.exists_extension path
    exact ⟨front ++ stem, by rw [List.append_assoc, ← h, ← hpath]⟩
  · rintro ⟨rest, rfl⟩
    obtain ⟨front, name, rfl, hf, hn⟩ := Path.exists_name rest
    rw [List.append_assoc]
    exact Path.extension_append hf hn (by decide) (by decide)

theorem extension_clean {source : Bytes} (h : Path.extension source = sourceExtension) :
    Path.extension (clean source) = sourceExtension := by
  obtain ⟨rest, rfl⟩ := extension_eq_iff.1 h
  obtain ⟨front, name, rfl, hf, hn⟩ := Path.exists_name rest
  obtain ⟨front', -, hc⟩ := Path.exists_clean_fileName hf (isEnding_source.fileName hn)
  exact extension_eq_iff.2 ⟨front' ++ name, by rw [List.append_assoc, hc, List.append_assoc]⟩

theorem exists_clean_base {front name : Bytes} (hf : Opens front) (hn : IsFileName name)
    {source : Bytes} (hs : Path.withoutExtension source = front ++ name) (outDir : Bytes) :
    ∃ front', Opens front' ∧ clean (base source outDir) = front' ++ name := by
  simp only [base, hs, Path.base_append_name hf hn]
  split
  · exact Path.exists_clean_fileName hf hn
  · rename_i ho
    rw [Path.below, if_neg ho, Path.clean_clean]
    exact Path.exists_clean_fileName (.inr ⟨outDir, rfl⟩) hn

/-- Sources whose native artifact has the name of a source. Their names end with the extension
twice, or nothing but dots is left of them without it, and then the artifact is at the place of a
directory that is called like a source. -/
def MayOverwrite (source outDir : Bytes) : Prop :=
  (∃ front, source = front ++ sourceExtension ++ sourceExtension) ∨
    ¬IsFileName (Path.afterSlash (Path.withoutExtension source)) ∧
      Path.extension (clean (base source outDir)) = sourceExtension

theorem mayOverwrite_iff {source : Bytes} (h : Path.extension source = sourceExtension)
    (outDir : Bytes) :
    MayOverwrite source outDir ↔ Path.extension (clean (base source outDir)) = sourceExtension := by
  obtain ⟨rest, hsource⟩ := extension_eq_iff.1 h
  obtain ⟨front, name, rfl, hf, hn⟩ := Path.exists_name rest
  have hwithout : Path.withoutExtension source = front ++ name :=
    Path.withoutExtension_eq (by rw [h, hsource])
  have htwice : (∃ rest, source = rest ++ sourceExtension ++ sourceExtension) ↔
      Path.extension (front ++ name) = sourceExtension := by
    rw [extension_eq_iff, hsource]
    exact exists_congr fun _ ↦ List.append_left_inj sourceExtension
  rw [MayOverwrite, htwice, hwithout, Path.afterSlash_append_name hf hn]
  by_cases hname : IsFileName name
  · obtain ⟨front', hf', hbase⟩ := exists_clean_base hf hname hwithout outDir
    rw [or_iff_left fun hno ↦ hno.1 hname, hbase, Path.extension_append_name hf hn,
      Path.extension_append_name hf' hn]
  · rw [and_iff_right hname, or_iff_right_iff_imp]
    intro he
    rw [Path.extension_append_name hf hn] at he
    obtain ⟨rest, rfl⟩ := extension_eq_iff.1 he
    exact absurd (isEnding_source.fileName fun hm ↦ hn (List.mem_append_left _ hm)) hname

/-- Of what is written for a source that is built, only a native artifact may be a source, when its
source is one of those whose artifact has the name of a source; and each of these does overwrite a
source, if that is given too. -/
theorem written_eq_source (hs : s.stage = .artifact) :
    (∀ w sources i a, (∀ source ∈ sources, Path.extension source = sourceExtension) →
      Accepted w s sources i a → ∀ path ∈ written s.mode (base a s.outDir), ∀ source ∈ sources,
        clean path = clean source →
          s.mode ≠ .llvm ∧ path = base a s.outDir ∧ MayOverwrite a s.outDir) ∧
    ∀ a, Path.extension a = sourceExtension → s.mode ≠ .llvm → MayOverwrite a s.outDir →
      ∃ w sources i, (∀ source ∈ sources, Path.extension source = sourceExtension) ∧
        Accepted w s sources i a ∧ ∃ source ∈ sources,
          clean (s.mode.artifact (base a s.outDir)) = clean source := by
  constructor
  · intro w sources i a hsources ha path hpath source hsource he
    have hext := hsources source hsource
    rcases List.mem_cons.1 hpath with rfl | hmid
    · obtain ⟨hm, hbase⟩ := (artifact_eq_source_iff hext).1 he
      have haext := hsources a (List.mem_of_getElem? ha.source)
      refine ⟨hm, by rw [Mode.artifact, if_neg hm], (mayOverwrite_iff haext s.outDir).2 ?_⟩
      rw [hbase]
      exact extension_clean hext
    · exact absurd he (intermediates_ne_source hext hmid)
  · intro a ha hm hmay
    have hbase := (mayOverwrite_iff ha s.outDir).1 hmay
    have hacc : Accepted nowhere s [a, clean (base a s.outDir)] 0 a :=
      (accepted_iff hs).2 ⟨.new a, rfl, rfl, rfl⟩
    refine ⟨nowhere, _, 0, ?_, hacc, clean (base a s.outDir), by simp,
      (artifact_eq_source_iff hbase).2 ⟨hm, (Path.clean_clean _).symm⟩⟩
    simp [ha, hbase]

theorem plain_names_avoid_sources :
    Accepted nowhere nextToSource [ascii "a.p0", ascii "d/a.p0"] 1 (ascii "d/a.p0") ∧
      ∀ path ∈ written .native (base (ascii "d/a.p0") []),
        ∀ source ∈ [ascii "a.p0", ascii "d/a.p0"], clean path ≠ clean source := by
  have ha : Accepted nowhere nextToSource [ascii "a.p0", ascii "d/a.p0"] 1 (ascii "d/a.p0") :=
    (accepted_iff rfl).2 ⟨.new (ascii "d/a.p0"), rfl, rfl, rfl⟩
  refine ⟨ha, fun path hpath source hsource he ↦ ?_⟩
  obtain ⟨-, -, hmay⟩ := (written_eq_source (s := nextToSource) rfl).1 nowhere
    [ascii "a.p0", ascii "d/a.p0"] 1 _ (by decide) ha path hpath source hsource he
  exact absurd ((mayOverwrite_iff (by decide) []).1 hmay) (by decide)

theorem artifact_is_source :
    ¬∀ i a, Accepted nowhere nextToSource [ascii "a.p0", ascii "a.p0.p0"] i a →
      ∀ path ∈ written .native (base a []), ∀ source ∈ [ascii "a.p0", ascii "a.p0.p0"],
        clean path ≠ clean source := by
  intro h
  have ha : Accepted nowhere nextToSource [ascii "a.p0", ascii "a.p0.p0"] 1 (ascii "a.p0.p0") :=
    (accepted_iff rfl).2 ⟨.new (ascii "a.p0.p0"), rfl, rfl, rfl⟩
  exact h 1 _ ha (ascii "a.p0") (by decide) (ascii "a.p0") (by decide) rfl

end PZero.Build
