import Mathlib.Tactic.Common
import PZero.Manifest
import PZero.Proofs.Path.Clean

namespace PZero.Manifest

/-- What a line is, without its comment. -/
inductive Line
  | empty
  | heading (name : Bytes)
  | assignment (key value : Bytes)
  deriving Repr, DecidableEq

def Line.of? (raw : Bytes) : Option Line :=
  if longestLine ≤ raw.length then none
  else if content raw = [] then some .empty
  else
    match heading? (content raw) with
    | some name => some (.heading name)
    | none => (assignment? (content raw)).map fun (key, value) ↦ .assignment key value

structure Setting where
  section_ : Bytes
  key : Bytes
  value : Bytes
  deriving Repr, DecidableEq

/-- The assignments of some lines, with the sections they stand in. -/
def settingsIn (section_ : Bytes) : List Line → List Setting
  | [] => []
  | .empty :: rest => settingsIn section_ rest
  | .heading name :: rest => settingsIn name rest
  | .assignment key value :: rest => ⟨section_, key, value⟩ :: settingsIn section_ rest

def sectionAfter (section_ : Bytes) : List Line → Bytes
  | [] => section_
  | .heading name :: rest => sectionAfter name rest
  | .empty :: rest | .assignment _ _ :: rest => sectionAfter section_ rest

theorem settingsIn_append (section_ : Bytes) (front back : List Line) :
    settingsIn section_ (front ++ back) =
      settingsIn section_ front ++ settingsIn (sectionAfter section_ front) back := by
  induction front generalizing section_ with
  | nil => rfl
  | cons line rest ih => cases line <;> simp [settingsIn, sectionAfter, ih]

namespace Setting

def IsValid (s : Setting) : Prop :=
  s.section_ = ascii "build" →
    (s.key = ascii "mode" → unquote s.value = ascii "llvm" ∨ unquote s.value = ascii "native") ∧
    (s.key = ascii "keep_ll" ∨ s.key = ascii "verify" → (truth? s.value).isSome = true) ∧
    (s.key = ascii "jobs" → (integer? s.value).any (fun n ↦ decide (0 ≤ n)) = true)

instance (s : Setting) : Decidable s.IsValid := by
  unfold IsValid
  infer_instance

/-- Whether the setting is one of a key in a section. -/
def sets (section_ key : Bytes) (s : Setting) : Bool := s.section_ = section_ ∧ s.key = key

end Setting

def last? (settings : List Setting) (section_ key : Bytes) : Option Bytes :=
  (settings.reverse.find? (·.sets section_ key)).map (·.value)

theorem last?_concat (settings : List Setting) (s : Setting) (section_ key : Bytes) :
    last? (settings ++ [s]) section_ key =
      if s.sets section_ key then some s.value else last? settings section_ key := by
  unfold last?
  rw [List.reverse_concat, List.find?_cons]
  split <;> rename_i h <;> simp [h]

variable {front back : List Setting} {s : Setting} {section_ key : Bytes}

theorem last?_insert_other (h : s.sets section_ key = false) :
    last? (front ++ s :: back) section_ key = last? (front ++ back) section_ key := by
  simp [last?, h]

theorem last?_insert (h : s.sets section_ key = true)
    (hback : ∀ t ∈ back, t.sets section_ key = false) :
    last? (front ++ s :: back) section_ key = some s.value := by
  have hnone : back.reverse.find? (·.sets section_ key) = none := by
    rw [List.find?_eq_none]
    intro t ht
    simpa using hback t (List.mem_reverse.1 ht)
  simp [last?, h, hnone]

/-- The configuration that settings make of the usual one. -/
def determined (path : Bytes) (settings : List Setting) : Manifest :=
  let tool (key : String) (usual : Bytes) : Bytes :=
    ((last? settings (ascii "tools") (ascii key)).map unquote).getD usual
  let build (key : String) : Option Bytes := last? settings (ascii "build") (ascii key)
  { path
    tools :=
      { clang := tool "clang" Tools.usual.clang
        llvmAs := tool "llvm_as" Tools.usual.llvmAs
        llvmLink := tool "llvm_link" Tools.usual.llvmLink
        lli := tool "lli" Tools.usual.lli }
    mode := ((build "mode").map fun value ↦ Mode.ofName (unquote value)).getD .native
    outDir := ((build "out_dir").map unquote).getD []
    keepLL := ((build "keep_ll").bind truth?).getD false
    jobs := ((build "jobs").bind integer?).getD 0
    verify := ((build "verify").bind truth?).getD false }

theorem determined_nil (path : Bytes) : determined path [] = { usual with path } := rfl

theorem set_tool (path : Bytes) (settings : List Setting) (key value : Bytes) :
    (determined path settings).set (ascii "tools") key value =
      .ok (determined path (settings ++ [⟨ascii "tools", key, value⟩])) := by
  unfold set
  rw [if_pos rfl]
  split_ifs with clang llvmAs llvmLink lli
  · subst clang
    simp +decide [determined, last?_concat, Setting.sets]
  · subst llvmAs
    simp +decide [determined, last?_concat, Setting.sets]
  · subst llvmLink
    simp +decide [determined, last?_concat, Setting.sets]
  · subst lli
    simp +decide [determined, last?_concat, Setting.sets]
  · simp +decide [determined, last?_concat, Setting.sets, clang, llvmAs, llvmLink, lli]

theorem ofName_known {name : Bytes} (h : name = ascii "llvm" ∨ name = ascii "native") :
    ∀ text, Mode.ofName name ≠ .unknown text := by
  intro text
  obtain rfl | rfl := h <;> simp +decide [Mode.ofName]

theorem set_build (path : Bytes) (settings : List Setting) {key value : Bytes}
    (hs : Setting.IsValid ⟨ascii "build", key, value⟩) :
    (determined path settings).set (ascii "build") key value =
      .ok (determined path (settings ++ [⟨ascii "build", key, value⟩])) := by
  obtain ⟨hmode, htruth, hjobs⟩ := hs rfl
  unfold set
  rw [if_neg (by decide), if_pos rfl]
  split_ifs with mode outDir keepLL verify jobs
  · subst mode
    have hknown := ofName_known (hmode rfl)
    split
    · rename_i hu
      exact absurd hu (hknown _)
    · simp +decide [determined, last?_concat, Setting.sets]
  · subst outDir
    simp +decide [determined, last?_concat, Setting.sets]
  · subst keepLL
    obtain ⟨b, hb⟩ := Option.isSome_iff_exists.1 (htruth (.inl rfl))
    simp +decide [determined, last?_concat, Setting.sets, hb]
  · subst verify
    obtain ⟨b, hb⟩ := Option.isSome_iff_exists.1 (htruth (.inr rfl))
    simp +decide [determined, last?_concat, Setting.sets, hb]
  · subst jobs
    have hj := hjobs rfl
    cases hn : integer? value with
    | none => simp [hn] at hj
    | some n =>
      have hle : ¬ n < 0 := by simpa [hn] using hj
      simp +decide [determined, last?_concat, Setting.sets, hn, hle]
  · simp +decide [determined, last?_concat, Setting.sets, mode, outDir, keepLL, verify, jobs]

theorem set_determined (path : Bytes) (settings : List Setting) {s : Setting} (hs : s.IsValid) :
    (determined path settings).set s.section_ s.key s.value =
      .ok (determined path (settings ++ [s])) := by
  obtain ⟨section_, key, value⟩ := s
  by_cases ht : section_ = ascii "tools"
  · subst ht
    exact set_tool path settings key value
  by_cases hb : section_ = ascii "build"
  · subst hb
    exact set_build path settings hs
  · simp [set, determined, last?_concat, Setting.sets, ht, hb]

/-- Lines that can be read, one below the other. -/
def Reads (raws : List Bytes) (lines : List Line) : Prop := raws.map Line.of? = lines.map some

instance (raws : List Bytes) (lines : List Line) : Decidable (Reads raws lines) :=
  inferInstanceAs (Decidable (_ = _))

theorem Reads.cons {raw : Bytes} {raws : List Bytes} {lines : List Line}
    (h : Reads (raw :: raws) lines) :
    ∃ line rest, lines = line :: rest ∧ Line.of? raw = some line ∧ Reads raws rest := by
  cases lines with
  | nil => cases h
  | cons line rest =>
    obtain ⟨hl, hr⟩ := List.cons.inj h
    exact ⟨line, rest, rfl, hl, hr⟩

theorem Reads.append {raws raws' : List Bytes} {lines lines' : List Line} (h : Reads raws lines)
    (h' : Reads raws' lines') : Reads (raws ++ raws') (lines ++ lines') := by
  unfold Reads at *
  rw [List.map_append, List.map_append, h, h']

theorem readLines_eq {raws : List Bytes} {lines : List Line} (h : Reads raws lines)
    (path section_ : Bytes) (number : Nat) (settings : List Setting)
    (hs : ∀ s ∈ settingsIn section_ lines, s.IsValid) :
    readLines (determined path settings) section_ number raws =
      .ok (determined path (settings ++ settingsIn section_ lines)) := by
  induction raws generalizing section_ number settings lines with
  | nil =>
    obtain rfl : lines = [] := by simpa [Reads] using h
    rw [settingsIn, List.append_nil]
    rfl
  | cons raw raws ih =>
    obtain ⟨line, rest, rfl, hl, hr⟩ := h.cons
    unfold readLines
    unfold Line.of? at hl
    split_ifs at hl with hlong hempty
    · obtain rfl := Option.some.inj hl
      rw [if_neg hlong, if_pos hempty]
      exact ih hr section_ _ settings hs
    · rw [if_neg hlong]
      simp only [if_neg hempty]
      cases hh : heading? (content raw) with
      | some name =>
        rw [hh] at hl
        obtain rfl := Option.some.inj hl
        exact ih hr name _ settings hs
      | none =>
        rw [hh] at hl
        obtain ⟨⟨key, value⟩, ha, rfl⟩ := Option.map_eq_some_iff.1 hl
        have hset := set_determined path settings (hs _ List.mem_cons_self)
        simp only [ha, hset]
        rw [ih hr section_ _ _ fun s hm ↦ hs s (List.mem_cons_of_mem _ hm), List.append_assoc]
        rfl

def unlines (raws : List Bytes) : Bytes := List.intercalate [10] raws

theorem lines_unlines {raws : List Bytes} (hne : raws ≠ []) (h : ∀ raw ∈ raws, 10 ∉ raw) :
    lines (unlines raws) = if raws.getLast? = some [] then raws.dropLast else raws := by
  unfold lines unlines
  rw [Bytes.splitAtByte_eq_splitOn, List.splitOn_intercalate 10 h hne]

theorem settingsIn_lines {raws : List Bytes} {ls : List Line} (hne : raws ≠ [])
    (h : ∀ raw ∈ raws, 10 ∉ raw) (hr : Reads raws ls) (section_ : Bytes) :
    ∃ ls', Reads (lines (unlines raws)) ls' ∧ settingsIn section_ ls' = settingsIn section_ ls := by
  rw [lines_unlines hne h]
  split_ifs with hlast
  · obtain ⟨front, rfl⟩ := List.getLast?_eq_some_iff.1 hlast
    unfold Reads at hr
    rw [List.map_append] at hr
    obtain ⟨fronts, backs, rfl, hfront, hback⟩ := List.append_eq_map_iff.1 hr
    obtain ⟨last, rfl, hempty⟩ := List.map_eq_singleton_iff.1 hback
    obtain rfl : Line.empty = last := Option.some.inj hempty.symm
    rw [List.dropLast_concat, settingsIn_append, settingsIn, settingsIn, List.append_nil]
    exact ⟨fronts, hfront.symm, rfl⟩
  · exact ⟨ls, hr, rfl⟩

/-- A file whose lines can all be read and whose values are all valid. -/
theorem parse_unlines {raws : List Bytes} {ls : List Line} (path : Bytes) (hne : raws ≠ [])
    (h : ∀ raw ∈ raws, 10 ∉ raw) (hr : Reads raws ls) (hs : ∀ s ∈ settingsIn [] ls, s.IsValid) :
    parse path (unlines raws) = .ok (determined path (settingsIn [] ls)).placeOutDir := by
  obtain ⟨ls', hr', he⟩ := settingsIn_lines hne h hr []
  have hread := readLines_eq hr' path [] 1 [] (he ▸ hs)
  rw [List.nil_append, he] at hread
  unfold parse
  rw [← determined_nil, hread]
  rfl

end PZero.Manifest
