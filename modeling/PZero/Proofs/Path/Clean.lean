import Mathlib.Data.List.Induction
import Mathlib.Tactic.Common
import PZero.Path

namespace PZero

theorem Bytes.splitAtByte_eq_splitOn (sep : UInt8) (text : Bytes) :
    splitAtByte sep text = text.splitOn sep := by
  induction text with
  | nil => rfl
  | cons b rest ih =>
    rw [splitAtByte, ih, List.splitOn, List.splitOn, List.splitOnP_cons_eq_if_modifyHead]
    by_cases hb : b = sep
    · simp [hb]
    · simp only [hb, beq_iff_eq, if_false]
      cases hs : List.splitOnP (· == sep) rest with
      | nil => exact absurd hs (List.splitOnP_ne_nil _ _)
      | cons part parts => rfl

namespace Path

theorem parts_eq (path : Bytes) : parts path = path.splitOn 47 :=
  Bytes.splitAtByte_eq_splitOn 47 path

theorem parts_append_slash (front rest : Bytes) :
    parts (front ++ 47 :: rest) = parts front ++ parts rest := by
  simp only [parts_eq, List.splitOn]
  exact List.splitOnP_append_cons front rest (by simp)

theorem parts_name {name : Bytes} (h : 47 ∉ name) : parts name = [name] := by
  have hj : List.intercalate [47] [name] = name := by simp [List.intercalate]
  rw [parts_eq]
  nth_rewrite 1 [← hj]
  refine List.splitOn_intercalate 47 ?_ (List.cons_ne_nil _ _)
  intro l hl
  rw [List.mem_singleton.1 hl]
  exact h

theorem not_mem_of_mem_parts {path name : Bytes} (h : name ∈ parts path) : 47 ∉ name := by
  induction path generalizing name with
  | nil =>
    rw [List.mem_singleton.1 h]
    exact List.not_mem_nil
  | cons b path ih =>
    rw [parts, Bytes.splitAtByte] at h
    split at h
    · rcases List.mem_cons.1 h with rfl | h
      · exact List.not_mem_nil
      · exact ih h
    · rename_i hb
      split at h
      · rw [List.mem_singleton.1 h]
        simpa using fun e ↦ hb e.symm
      · rename_i part parts hp
        rcases List.mem_cons.1 h with rfl | h
        · have hpart := ih (show part ∈ Path.parts path by rw [Path.parts, hp]; simp)
          simpa [hpart] using fun e ↦ hb e.symm
        · exact ih (show name ∈ Path.parts path by rw [Path.parts, hp]; simp [h])

/-- The names kept so far, in reverse, behind one more name of a path. -/
def turn (rooted : Bool) (kept : List Bytes) (name : Bytes) : List Bytes :=
  if name = [] ∨ name = ascii "." then kept
  else if name = ascii ".." then
    match kept with
    | last :: before => if last = ascii ".." then name :: kept else before
    | [] => if rooted then [] else [name]
  else name :: kept

theorem resolve_eq_foldl (rooted : Bool) (kept names : List Bytes) :
    resolve rooted kept names = (names.foldl (turn rooted) kept).reverse := by
  induction names generalizing kept with
  | nil => rfl
  | cons name names ih =>
    rw [List.foldl_cons, ← ih, resolve.eq_def]
    simp only [turn]
    by_cases hs : name = [] ∨ name = ascii "."
    · simp only [if_pos hs]
    · by_cases hd : name = ascii ".."
      · simp only [if_neg hs, if_pos hd]
        cases kept with
        | nil => cases rooted <;> rfl
        | cons last before =>
          by_cases hl : last = ascii ".."
          · simp only [if_pos hl]
          · simp only [if_neg hl]
      · simp only [if_neg hs, if_neg hd]

/-- A name that may be left in a cleaned path. -/
structure IsKept (name : Bytes) : Prop where
  noSlash : 47 ∉ name
  ne_nil : name ≠ []
  ne_dot : name ≠ ascii "."

/-- A name that is always left in a cleaned path. -/
structure IsFileName (name : Bytes) : Prop extends IsKept name where
  ne_dots : name ≠ ascii ".."

theorem turn_fileName {name : Bytes} (h : IsFileName name) (rooted : Bool) (kept : List Bytes) :
    turn rooted kept name = name :: kept := by
  simp only [turn, h.ne_nil, h.ne_dot, or_self, h.ne_dots, if_false]

theorem turn_isKept {rooted : Bool} {kept : List Bytes} {name : Bytes} (hn : 47 ∉ name)
    (h : ∀ n ∈ kept, IsKept n) : ∀ n ∈ turn rooted kept name, IsKept n := by
  unfold turn
  split
  · exact h
  · rename_i hne
    have hk : IsKept name := ⟨hn, fun e ↦ hne (.inl e), fun e ↦ hne (.inr e)⟩
    split
    · split
      · split
        · exact List.forall_mem_cons.2 ⟨hk, h⟩
        · exact (List.forall_mem_cons.1 h).2
      · split
        · exact h
        · exact List.forall_mem_cons.2 ⟨hk, h⟩
    · exact List.forall_mem_cons.2 ⟨hk, h⟩

theorem foldl_turn_isKept {rooted : Bool} {kept names : List Bytes} (hn : ∀ n ∈ names, 47 ∉ n)
    (h : ∀ n ∈ kept, IsKept n) : ∀ n ∈ names.foldl (turn rooted) kept, IsKept n := by
  induction names generalizing kept with
  | nil => exact h
  | cons name names ih =>
    obtain ⟨hname, hnames⟩ := List.forall_mem_cons.1 hn
    exact ih hnames (turn_isKept hname h)

/-- Where a path leads: whether it starts at the root, and the names that are left of it, the last
one first. -/
def route (path : Bytes) : Bool × List Bytes :=
  (isAbsolute path, (parts path).foldl (turn (isAbsolute path)) [])

theorem route_isKept (path : Bytes) : ∀ n ∈ (route path).2, IsKept n :=
  foldl_turn_isKept (fun _ ↦ not_mem_of_mem_parts) fun _ h ↦ (List.not_mem_nil h).elim

def spelled (rooted : Bool) (names : List Bytes) : Bytes :=
  if rooted then 47 :: join names.reverse else if names = [] then ascii "." else join names.reverse

theorem parts_join {names : List Bytes} (h : ∀ n ∈ names, IsKept n) (hne : names ≠ []) :
    parts (join names) = names := by
  rw [parts_eq]
  exact List.splitOn_intercalate 47 (fun n hn ↦ (h n hn).noSlash) hne

theorem join_ne_nil {names : List Bytes} (h : ∀ n ∈ names, IsKept n) (hne : names ≠ []) :
    join names ≠ [] := by
  intro hj
  have hp := parts_join h hne
  rw [hj] at hp
  exact (h [] (hp ▸ List.mem_singleton_self _)).ne_nil rfl

theorem clean_eq_spelled (path : Bytes) : clean path = spelled (route path).1 (route path).2 := by
  have hr := resolve_eq_foldl (isAbsolute path) [] (parts path)
  have hc : clean path = if isAbsolute path then 47 :: join (route path).2.reverse
      else if join (route path).2.reverse = [] then ascii "." else join (route path).2.reverse := by
    simp only [clean, hr]
    rfl
  rw [hc, spelled]
  change _ = if isAbsolute path then _ else _
  split
  · rfl
  · by_cases hn : (route path).2 = []
    · simp only [hn, if_true]
      rfl
    · have hj := join_ne_nil (fun n hm ↦ route_isKept path n (List.mem_reverse.1 hm))
        (List.reverse_ne_nil_iff.2 hn)
      rw [if_neg hj, if_neg hn]

/-- The names of a text that may be left in a cleaned path. -/
def keptParts (text : Bytes) : List Bytes := (parts text).filter fun n ↦ n ≠ [] ∧ n ≠ ascii "."

theorem keptParts_join {names : List Bytes} (h : ∀ n ∈ names, IsKept n) :
    keptParts (join names) = names := by
  by_cases hne : names = []
  · subst hne
    rfl
  · rw [keptParts, parts_join h hne, List.filter_eq_self]
    intro n hn
    simpa using ⟨(h n hn).ne_nil, (h n hn).ne_dot⟩

theorem keptParts_spelled {names : List Bytes} (h : ∀ n ∈ names, IsKept n) (rooted : Bool) :
    keptParts (spelled rooted names) = names.reverse := by
  have hj := keptParts_join fun n hn ↦ h n (List.mem_reverse.1 hn)
  unfold spelled
  split
  · have hp : parts (47 :: join names.reverse) = [] :: parts (join names.reverse) :=
      parts_append_slash [] _
    rw [keptParts, hp, List.filter_cons_of_neg (by simp)]
    exact hj
  · split
    · rename_i hn
      subst hn
      rfl
    · exact hj

theorem isAbsolute_spelled {names : List Bytes} (h : ∀ n ∈ names, IsKept n) (rooted : Bool) :
    isAbsolute (spelled rooted names) = rooted := by
  cases rooted with
  | true => rfl
  | false =>
    by_cases hn : names = []
    · subst hn
      rfl
    · have hp := parts_join (fun n hm ↦ h n (List.mem_reverse.1 hm)) (List.reverse_ne_nil_iff.2 hn)
      rw [spelled, if_neg (by decide), if_neg hn]
      cases hj : join names.reverse with
      | nil => rfl
      | cons b rest =>
        by_cases hb : b = 47
        · -- A text that starts with a slash has an empty part in front.
          rw [hj, hb] at hp
          have hmem : [] ∈ parts ([] ++ 47 :: rest) := by
            rw [parts_append_slash]
            exact List.mem_append_left _ (List.mem_singleton_self _)
          exact absurd rfl (h [] (List.mem_reverse.1 (hp ▸ hmem))).ne_nil
        · have hb' : (47 == b) = false := by simpa using fun e ↦ hb e.symm
          simp [isAbsolute, Bytes.startsWith, ascii, List.isPrefixOf, hb']

theorem clean_eq_clean_iff {p q : Bytes} : clean p = clean q ↔ route p = route q := by
  constructor
  · intro h
    rw [clean_eq_spelled, clean_eq_spelled] at h
    have hr := congrArg isAbsolute h
    rw [isAbsolute_spelled (route_isKept p), isAbsolute_spelled (route_isKept q)] at hr
    have hn := congrArg keptParts h
    rw [keptParts_spelled (route_isKept p), keptParts_spelled (route_isKept q),
      List.reverse_inj] at hn
    exact Prod.ext hr hn
  · intro h
    rw [clean_eq_spelled, clean_eq_spelled, h]

theorem turn_cases (rooted : Bool) (kept : List Bytes) (name : Bytes) :
    turn rooted kept name = kept ∨ turn rooted kept name = name :: kept ∨
      ∃ last, kept = last :: turn rooted kept name := by
  unfold turn
  split
  · exact .inl rfl
  · split
    · cases kept with
      | nil => cases rooted <;> simp
      | cons last before =>
        dsimp only
        split
        · exact .inr (.inl rfl)
        · exact .inr (.inr ⟨last, rfl⟩)
    · exact .inr (.inl rfl)

/-- Names, the last one first, none of which takes back another. -/
def Settled (rooted : Bool) : List Bytes → Prop
  | [] => True
  | name :: before => turn rooted before name = name :: before ∧ Settled rooted before

theorem Settled.turn {rooted : Bool} {kept : List Bytes} (h : Settled rooted kept) (name : Bytes) :
    Settled rooted (turn rooted kept name) := by
  rcases turn_cases rooted kept name with he | he | ⟨last, he⟩
  · rwa [he]
  · exact he ▸ ⟨he, h⟩
  · rw [he] at h
    exact h.2

theorem Settled.foldl {rooted : Bool} {kept : List Bytes} (h : Settled rooted kept)
    (names : List Bytes) : Settled rooted (names.foldl (Path.turn rooted) kept) := by
  induction names generalizing kept with
  | nil => exact h
  | cons name names ih => exact ih (h.turn name)

theorem Settled.foldl_reverse {rooted : Bool} {names : List Bytes} (h : Settled rooted names) :
    names.reverse.foldl (Path.turn rooted) [] = names := by
  induction names with
  | nil => rfl
  | cons name before ih =>
    rw [List.reverse_cons, List.foldl_append, ih h.2]
    exact h.1

theorem foldl_turn_filter (rooted : Bool) (kept names : List Bytes) :
    (names.filter fun n ↦ n ≠ [] ∧ n ≠ ascii ".").foldl (turn rooted) kept =
      names.foldl (turn rooted) kept := by
  induction names generalizing kept with
  | nil => rfl
  | cons name names ih =>
    by_cases h : name = [] ∨ name = ascii "."
    · rw [List.filter_cons_of_neg (by simpa [or_iff_not_imp_left] using h), ih, List.foldl_cons,
        show turn rooted kept name = kept from if_pos h]
    · rw [List.filter_cons_of_pos (by simpa [not_or] using h), List.foldl_cons, List.foldl_cons, ih]

theorem route_clean (path : Bytes) : route (clean path) = route path := by
  have hkept := route_isKept path
  have hnone : Settled (route path).1 [] := trivial
  have hsettled : Settled (route path).1 (route path).2 := hnone.foldl (parts path)
  rw [clean_eq_spelled]
  generalize route path = r at hkept hsettled ⊢
  obtain ⟨rooted, names⟩ := r
  rw [route, isAbsolute_spelled hkept, ← foldl_turn_filter]
  change (rooted, (keptParts (spelled rooted names)).foldl _ _) = _
  rw [keptParts_spelled hkept, hsettled.foldl_reverse]

theorem clean_clean (path : Bytes) : clean (clean path) = clean path :=
  clean_eq_clean_iff.2 (route_clean path)

/-- A text behind which a name can stand. -/
def Opens (front : Bytes) : Prop := front = [] ∨ ∃ directory, front = directory ++ [47]

theorem exists_name (path : Bytes) :
    ∃ front name, path = front ++ name ∧ Opens front ∧ 47 ∉ name := by
  induction path using List.reverseRecOn with
  | nil => exact ⟨[], [], rfl, .inl rfl, List.not_mem_nil⟩
  | append_singleton path b ih =>
    obtain ⟨front, name, rfl, hf, hn⟩ := ih
    by_cases hb : b = 47
    · subst hb
      exact ⟨front ++ name ++ [47], [], by simp, .inr ⟨_, rfl⟩, List.not_mem_nil⟩
    · refine ⟨front, name ++ [b], by simp, hf, ?_⟩
      simpa [hn] using fun e ↦ hb e.symm

theorem isAbsolute_append {front : Bytes} (h : front ≠ []) (rest : Bytes) :
    isAbsolute (front ++ rest) = isAbsolute front := by
  cases front with
  | nil => exact absurd rfl h
  | cons b front => simp [isAbsolute, Bytes.startsWith, ascii, List.isPrefixOf]

theorem isAbsolute_name {name : Bytes} (h : 47 ∉ name) : isAbsolute name = false := by
  cases name with
  | nil => rfl
  | cons b name =>
    have hb : (47 == b) = false := by
      rw [beq_eq_false_iff_ne]
      rintro rfl
      exact h List.mem_cons_self
    simp [isAbsolute, Bytes.startsWith, ascii, List.isPrefixOf, hb]

theorem route_append_name {front name : Bytes} (hf : Opens front) (hn : 47 ∉ name) :
    route (front ++ name) = ((route front).1, turn (route front).1 (route front).2 name) := by
  rcases hf with rfl | ⟨directory, rfl⟩
  · rw [List.nil_append, route, isAbsolute_name hn, parts_name hn]
    rfl
  · have ha : isAbsolute (directory ++ [47] ++ name) = isAbsolute (directory ++ [47]) :=
      isAbsolute_append (by simp) name
    have hp : parts (directory ++ [47] ++ name) = parts directory ++ [name] := by
      rw [List.append_assoc, List.singleton_append, parts_append_slash, parts_name hn]
    have hd : parts (directory ++ [47]) = parts directory ++ [[]] := parts_append_slash directory []
    simp only [route, ha, hp, hd, List.foldl_append, List.foldl_cons, List.foldl_nil]
    rfl

/-- Files with names that stay are one file just if they have one name in one place. -/
theorem clean_fileName_iff {front front' name name' : Bytes} (hf : Opens front)
    (hf' : Opens front') (hn : IsFileName name) (hn' : IsFileName name') :
    clean (front ++ name) = clean (front' ++ name') ↔
      route front = route front' ∧ name = name' := by
  rw [clean_eq_clean_iff, route_append_name hf hn.noSlash, route_append_name hf' hn'.noSlash,
    turn_fileName hn, turn_fileName hn']
  constructor
  · intro h
    obtain ⟨hr, hnames⟩ := Prod.mk.inj h
    obtain ⟨rfl, hrest⟩ := List.cons.inj hnames
    exact ⟨Prod.ext hr hrest, rfl⟩
  · rintro ⟨h, rfl⟩
    rw [h]

theorem exists_join_concat (names : List Bytes) (name : Bytes) :
    ∃ front, Opens front ∧ join (names ++ [name]) = front ++ name := by
  induction names with
  | nil => exact ⟨[], .inl rfl, by simp [join, List.intercalate]⟩
  | cons first names ih =>
    obtain ⟨front, hf, hj⟩ := ih
    have hcons : join (first :: (names ++ [name])) = first ++ 47 :: join (names ++ [name]) := by
      cases names <;> simp [join, List.intercalate, ascii]
    refine ⟨first ++ 47 :: front, ?_, by rw [List.cons_append, hcons, hj]; simp⟩
    rcases hf with rfl | ⟨directory, rfl⟩
    · exact .inr ⟨first, rfl⟩
    · exact .inr ⟨first ++ 47 :: directory, by simp⟩

theorem exists_clean_fileName {front name : Bytes} (hf : Opens front) (hn : IsFileName name) :
    ∃ front', Opens front' ∧ clean (front ++ name) = front' ++ name := by
  rw [clean_eq_spelled, route_append_name hf hn.noSlash, turn_fileName hn]
  obtain ⟨front', hf', hj⟩ := exists_join_concat (route front).2.reverse name
  rw [spelled, List.reverse_cons, hj, if_neg (List.cons_ne_nil _ _)]
  split
  · refine ⟨47 :: front', ?_, rfl⟩
    rcases hf' with rfl | ⟨directory, rfl⟩
    · exact .inr ⟨[], rfl⟩
    · exact .inr ⟨47 :: directory, rfl⟩
  · exact ⟨front', hf', rfl⟩

/-- A text that makes a name one that stays. -/
structure IsEnding (text : Bytes) : Prop where
  noSlash : 47 ∉ text
  length : 3 ≤ text.length

theorem IsEnding.fileName {text name : Bytes} (h : IsEnding text) (hn : 47 ∉ name) :
    IsFileName (name ++ text) := by
  have hl : 3 ≤ (name ++ text).length := by
    rw [List.length_append]
    exact Nat.le_add_left_of_le h.length
  have hne : ∀ short : Bytes, short.length < 3 → name ++ text ≠ short := by
    rintro short hs rfl
    omega
  exact ⟨⟨by simp [hn, h.noSlash], hne [] (by decide), hne (ascii ".") (by decide)⟩,
    hne (ascii "..") (by decide)⟩

theorem IsEnding.getLast?_append {text : Bytes} (h : IsEnding text) (name : Bytes) :
    (name ++ text).getLast? = text.getLast? := by
  rw [List.getLast?_append]
  cases hl : text.getLast? with
  | none =>
    have hlen := h.length
    rw [List.getLast?_eq_none_iff.1 hl] at hlen
    exact absurd hlen (by decide)
  | some b => rfl

theorem clean_of_clean_append {p q ending : Bytes} (he : IsEnding ending)
    (h : clean (p ++ ending) = clean (q ++ ending)) : clean p = clean q := by
  obtain ⟨front, name, rfl, hf, hn⟩ := exists_name p
  obtain ⟨front', name', rfl, hf', hn'⟩ := exists_name q
  rw [List.append_assoc, List.append_assoc,
    clean_fileName_iff hf hf' (he.fileName hn) (he.fileName hn')] at h
  obtain ⟨hr, hname⟩ := h
  rw [clean_eq_clean_iff, route_append_name hf hn, route_append_name hf' hn', hr,
    List.append_cancel_right hname]

theorem clean_append_ne {ending ending' : Bytes} (he : IsEnding ending) (he' : IsEnding ending')
    (hl : ending.getLast? ≠ ending'.getLast?) (p q : Bytes) :
    clean (p ++ ending) ≠ clean (q ++ ending') := by
  intro h
  obtain ⟨front, name, rfl, hf, hn⟩ := exists_name p
  obtain ⟨front', name', rfl, hf', hn'⟩ := exists_name q
  rw [List.append_assoc, List.append_assoc,
    clean_fileName_iff hf hf' (he.fileName hn) (he'.fileName hn')] at h
  have hlast := congrArg List.getLast? h.2
  rw [he.getLast?_append, he'.getLast?_append] at hlast
  exact hl hlast

theorem afterSlash_append_name {front name : Bytes} (hf : Opens front) (hn : 47 ∉ name) :
    afterSlash (front ++ name) = name := by
  have hname : ∀ b ∈ name.reverse, (b != 47) = true := by
    intro b hb
    rw [bne_iff_ne]
    rintro rfl
    exact hn (List.mem_reverse.1 hb)
  have hfront : front.reverse.takeWhile (· != 47) = [] := by
    rcases hf with rfl | ⟨directory, rfl⟩
    · rfl
    · simp
  rw [afterSlash, List.reverse_append, List.takeWhile_append_of_pos hname, hfront,
    List.append_nil, List.reverse_reverse]

theorem extension_append_name {front name : Bytes} (hf : Opens front) (hn : 47 ∉ name) :
    extension (front ++ name) = extension name := by
  have hname : afterSlash ([] ++ name) = name := afterSlash_append_name (.inl rfl) hn
  rw [List.nil_append] at hname
  simp only [extension, afterSlash_append_name hf hn, hname]

theorem exists_extension (path : Bytes) : ∃ front stem, path = front ++ (stem ++ extension path) ∧
    Opens front ∧ 47 ∉ stem ++ extension path := by
  obtain ⟨front, name, rfl, hf, hn⟩ := exists_name path
  have hs : ∃ stem, name = stem ++ extension (front ++ name) := by
    simp only [extension, afterSlash_append_name hf hn]
    split
    · exact ⟨name, (List.append_nil name).symm⟩
    · exact ⟨_, (List.take_append_drop _ name).symm⟩
  obtain ⟨stem, hs⟩ := hs
  exact ⟨front, stem, by rw [← hs], hf, hs ▸ hn⟩

theorem withoutExtension_eq {path front : Bytes} (h : path = front ++ extension path) :
    withoutExtension path = front := by
  have hl := congrArg List.length h
  rw [List.length_append] at hl
  rw [withoutExtension, hl, Nat.add_sub_cancel]
  nth_rewrite 1 [h]
  exact List.take_left

theorem extension_append {front stem ending : Bytes} (hf : Opens front) (hn : 47 ∉ stem)
    (he : 47 ∉ ending) (hd : 46 ∉ ending) :
    extension (front ++ (stem ++ 46 :: ending)) = 46 :: ending := by
  have hname : 47 ∉ stem ++ 46 :: ending := by simp [hn, he]
  have hback : ((stem ++ 46 :: ending).reverse.takeWhile (· != 46)).length = ending.length := by
    have hall : ∀ b ∈ ending.reverse, (b != 46) = true := by
      intro b hb
      rw [bne_iff_ne]
      rintro rfl
      exact hd (List.mem_reverse.1 hb)
    rw [List.reverse_append, List.reverse_cons, List.append_assoc,
      List.takeWhile_append_of_pos hall]
    simp
  simp only [extension, afterSlash_append_name hf hname, hback]
  have hl : (stem ++ 46 :: ending).length - ending.length - 1 = stem.length := by simp; omega
  rw [if_neg (by simp; omega), hl, List.drop_left]

theorem base_append_name {front name : Bytes} (hf : Opens front) (hn : IsFileName name) :
    base (front ++ name) = name := by
  obtain ⟨rest, last, hname⟩ := List.eq_nil_or_concat name |>.resolve_left hn.ne_nil
  have hlast : last ≠ 47 := by
    rintro rfl
    exact hn.noSlash (by rw [hname]; simp)
  have hdrop : dropTrailingSlashes (front ++ name) = front ++ name := by
    rw [dropTrailingSlashes, hname, List.concat_eq_append, ← List.append_assoc,
      List.reverse_append, List.reverse_singleton, List.singleton_append,
      List.dropWhile_cons_of_neg (by simpa using hlast), List.reverse_cons, List.reverse_reverse]
  have hne : front ++ name ≠ [] := fun h ↦ hn.ne_nil (List.append_eq_nil_iff.1 h).2
  simp only [base, if_neg hne, hdrop, afterSlash_append_name hf hn.noSlash, if_neg hn.ne_nil]

end Path

end PZero
