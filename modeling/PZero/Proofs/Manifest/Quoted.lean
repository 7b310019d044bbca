import PZero.Proofs.Manifest.Settings
import PZero.Proofs.Text.Cut
import PZero.Proofs.Text.Trim

namespace PZero

def Tools.put (t : Tools) (key value : Bytes) : Tools :=
  if key = ascii "clang" then { t with clang := value }
  else if key = ascii "llvm_as" then { t with llvmAs := value }
  else if key = ascii "llvm_link" then { t with llvmLink := value }
  else if key = ascii "lli" then { t with lli := value }
  else t

namespace Manifest

open Text (IsPrinted trim_printed)

def toolKeys : List Bytes := ["clang", "llvm_as", "llvm_link", "lli"].map ascii

def quotedLine (key value : Bytes) : Bytes := key ++ ascii " = \"" ++ value ++ ascii "\""

/-- A printable text without a quote in it. -/
def IsQuotable (value : Bytes) : Prop := ∀ b ∈ value, IsPrinted b ∧ b ≠ 34

instance (value : Bytes) : Decidable (IsQuotable value) :=
  inferInstanceAs (Decidable (∀ _ ∈ value, _ ∧ _))

/-- What is left of a value between quotes. -/
def readBack (value : Bytes) : Bytes :=
  if 35 ∈ value then (34 :: value.takeWhile (· != 35)).rdropWhile (· == 32) else value

/-- The value with its quotes, up to a comment. -/
def kept (value : Bytes) : Bytes :=
  (34 :: (value ++ [34]).takeWhile (· != 35)).rdropWhile (· == 32)

theorem toolKeys_bytes {key : Bytes} (h : key ∈ toolKeys) :
    key ≠ [] ∧ ∀ c ∈ key, IsPrinted c ∧ c ≠ 32 ∧ c ≠ 35 ∧ c ≠ 61 ∧ c ≠ 91 := by
  have hall : ∀ key ∈ toolKeys,
      key ≠ [] ∧ ∀ c ∈ key, IsPrinted c ∧ c ≠ 32 ∧ c ≠ 35 ∧ c ≠ 61 ∧ c ≠ 91 := by
    decide +kernel
  exact hall key h

theorem rdropWhile_append {p : UInt8 → Bool} {b : UInt8} (front back : Bytes) (hm : b ∈ back)
    (hb : p b = false) : (front ++ back).rdropWhile p = front ++ back.rdropWhile p := by
  have hne : (back.reverse.dropWhile p).isEmpty = false := by
    rw [List.isEmpty_eq_false_iff, ne_eq, List.dropWhile_eq_nil_iff]
    intro hall
    rw [hall b (List.mem_reverse.2 hm)] at hb
    cases hb
  unfold List.rdropWhile
  rw [List.reverse_append, List.dropWhile_append, hne]
  simp

theorem endsWith_concat (text : Bytes) (a b : UInt8) :
    Bytes.endsWith (text ++ [a]) [b] = true ↔ a = b := by
  rw [Bytes.endsWith, List.isSuffixOf_iff_suffix]
  constructor
  · intro ⟨front, h⟩
    exact (List.cons.inj (List.append_inj_right' h rfl)).1.symm
  · rintro rfl
    exact List.suffix_append text [a]

variable {key value : Bytes}

theorem quotedLine_eq (key value : Bytes) :
    quotedLine key value = (key ++ ascii " = " ++ [34]) ++ (value ++ [34]) := by
  have hmid : ascii " = \"" = ascii " = " ++ [34] := rfl
  have hend : ascii "\"" = [34] := rfl
  rw [quotedLine, hmid, hend, ← List.append_assoc, List.append_assoc _ value]

theorem quotedLine_printed (hk : key ∈ toolKeys) (hv : IsQuotable value) :
    ∀ b ∈ quotedLine key value, IsPrinted b := by
  have hmid : ∀ b ∈ ascii " = \"", IsPrinted b := by decide +kernel
  have hend : ∀ b ∈ ascii "\"", IsPrinted b := by decide +kernel
  intro b hb
  simp only [quotedLine, List.mem_append] at hb
  obtain ((hb | hb) | hb) | hb := hb
  · exact ((toolKeys_bytes hk).2 b hb).1
  · exact hmid b hb
  · exact (hv b hb).1
  · exact hend b hb

theorem dropEnd_quotedLine (key value : Bytes) :
    Bytes.dropEnd (quotedLine key value) (ascii "\r") = quotedLine key value := by
  have hend : ¬ Bytes.endsWith (quotedLine key value) (ascii "\r") = true := by
    rw [quotedLine_eq, ← List.append_assoc]
    exact fun h ↦ absurd ((endsWith_concat _ _ _).1 h) (by decide)
  rw [Bytes.dropEnd, if_neg hend]

theorem takeWhile_quotedLine (hk : key ∈ toolKeys) :
    (quotedLine key value).takeWhile (· != 35) =
      (key ++ ascii " = ") ++ (34 :: (value ++ [34]).takeWhile (· != 35)) := by
  have hfront : ∀ b ∈ key ++ ascii " = " ++ [34], (b != 35) = true := by
    intro b hb
    rw [List.append_assoc, List.mem_append] at hb
    obtain hb | hb := hb
    · exact bne_iff_ne.2 ((toolKeys_bytes hk).2 b hb).2.2.1
    · revert b
      decide +kernel
  rw [quotedLine_eq, List.takeWhile_append_of_pos hfront, List.append_assoc, List.singleton_append]

theorem content_quotedLine (hk : key ∈ toolKeys) (hv : IsQuotable value) :
    content (quotedLine key value) = key ++ ascii " = " ++ kept value := by
  obtain ⟨hne, hkey⟩ := toolKeys_bytes hk
  have hprinted : ∀ b ∈ (quotedLine key value).takeWhile (· != 35), IsPrinted b :=
    fun b hb ↦ quotedLine_printed hk hv b ((List.takeWhile_sublist _).mem hb)
  rw [content, dropEnd_quotedLine, trim_printed hprinted, takeWhile_quotedLine hk]
  obtain ⟨b, rest, rfl⟩ := List.exists_cons_of_ne_nil hne
  have hb := (hkey b List.mem_cons_self).2.1
  -- the key stops the trimming in front, the opening quote stops it at the end
  rw [List.cons_append, List.cons_append, List.dropWhile_cons_of_neg (by simpa using hb),
    ← List.cons_append, ← List.cons_append,
    rdropWhile_append (b := 34) _ _ List.mem_cons_self (by decide), kept]

theorem exists_opened (text : Bytes) :
    ∃ rest, (34 :: text).rdropWhile (· == 32) = 34 :: rest ∧ rest <+: text := by
  have hp : (34 :: text).rdropWhile (· == 32) <+: 34 :: text := List.rdropWhile_prefix _ _
  obtain hnil | ⟨rest, he, hr⟩ := List.prefix_cons_iff.1 hp
  · have hall := List.rdropWhile_eq_nil_iff.1 hnil 34 List.mem_cons_self
    exact absurd hall (by decide)
  · exact ⟨rest, he, hr⟩

theorem exists_kept (value : Bytes) :
    ∃ rest, kept value = 34 :: rest ∧ rest <+: (value ++ [34]).takeWhile (· != 35) :=
  exists_opened _

theorem kept_printed (hv : IsQuotable value) : ∀ b ∈ kept value, IsPrinted b := by
  obtain ⟨rest, he, hr⟩ := exists_kept value
  have hquote : IsPrinted 34 := by decide
  intro b hb
  rw [he] at hb
  obtain rfl | hb := List.mem_cons.1 hb
  · exact hquote
  obtain hb | hb := List.mem_append.1 ((List.takeWhile_sublist _).mem (hr.subset hb))
  · exact (hv b hb).1
  · obtain rfl := List.mem_singleton.1 hb
    exact hquote

theorem kept_of_mem (h : 35 ∈ value) : kept value = readBack value := by
  have hshort : (value.takeWhile (· != 35)).length ≠ value.length := by
    intro he
    have hself := (List.takeWhile_prefix (· != 35)).eq_of_length he
    have hne := List.takeWhile_eq_self_iff.1 hself 35 h
    exact absurd hne (by decide)
  rw [kept, readBack, if_pos h, List.takeWhile_append, if_neg hshort]

theorem kept_of_notMem (h : 35 ∉ value) : kept value = 34 :: (value ++ [34]) := by
  have hall : ∀ b ∈ value ++ [34], (b != 35) = true := by
    intro b hb
    obtain hb | hb := List.mem_append.1 hb
    · exact bne_iff_ne.2 fun he ↦ h (he ▸ hb)
    · obtain rfl := List.mem_singleton.1 hb
      decide
  rw [kept, List.takeWhile_eq_self_iff.2 hall, ← List.cons_append,
    List.rdropWhile_concat_neg _ _ _ (by decide)]

theorem trim_key (hk : key ∈ toolKeys) : Text.trim (key ++ [32]) = key := by
  have hall : ∀ key ∈ toolKeys, Text.trim (key ++ [32]) = key := by decide
  exact hall key hk

theorem trim_kept (hv : IsQuotable value) : Text.trim (32 :: kept value) = kept value := by
  have hp : ∀ b ∈ 32 :: kept value, IsPrinted b :=
    List.forall_mem_cons.2 ⟨by decide, kept_printed hv⟩
  obtain ⟨rest, he, -⟩ := exists_kept value
  have hd : (kept value).dropWhile (· == 32) = kept value := by
    rw [he, List.dropWhile_cons_of_neg (by decide)]
  rw [trim_printed hp, List.dropWhile_cons_of_pos (by decide), hd, kept,
    List.rdropWhile_idempotent]

theorem assignment?_kept (hk : key ∈ toolKeys) (hv : IsQuotable value) :
    assignment? (key ++ ascii " = " ++ kept value) = some (key, kept value) := by
  obtain ⟨hne, hkey⟩ := toolKeys_bytes hk
  have hsplit : key ++ ascii " = " ++ kept value = (key ++ [32]) ++ 61 :: (32 :: kept value) := by
    simp [ascii]
  have hfront : 61 ∉ key ++ [32] := by
    intro hb
    obtain hb | hb := List.mem_append.1 hb
    · exact (hkey 61 hb).2.2.2.1 rfl
    · exact absurd (List.mem_singleton.1 hb) (by decide)
  have hvalue : kept value ≠ [] := by
    obtain ⟨rest, he, -⟩ := exists_kept value
    rw [he]
    exact List.cons_ne_nil 34 rest
  unfold assignment?
  rw [hsplit, Bytes.cutAtByte_append hfront]
  simp only [trim_key hk, trim_kept hv, hne, hvalue, or_self, if_false]

theorem unquote_kept (hv : IsQuotable value) : unquote (kept value) = readBack value := by
  by_cases hhash : 35 ∈ value
  · obtain ⟨rest, he, hr⟩ := exists_opened (value.takeWhile (· != 35))
    have hread : readBack value = 34 :: rest := by rw [readBack, if_pos hhash, he]
    have hone : ¬ (decide (2 ≤ (34 :: rest).length) && Bytes.startsWith (34 :: rest) (ascii "\"")
        && Bytes.endsWith (34 :: rest) (ascii "\"")) = true := by
      obtain rfl | ⟨front, b, rfl⟩ := List.eq_nil_or_concat' rest
      · decide
      -- the last byte is one of the value, which has no quotes
      have hb : b ≠ 34 :=
        (hv b ((List.takeWhile_sublist _).mem (hr.subset (by simp)))).2
      intro h
      exact hb ((endsWith_concat (34 :: front) b 34).1 (Bool.and_eq_true_iff.1 h).2)
    rw [kept_of_mem hhash, hread, unquote, if_neg hone]
  · have hboth : (decide (2 ≤ (34 :: (value ++ [34])).length)
        && Bytes.startsWith (34 :: (value ++ [34])) (ascii "\"")
        && Bytes.endsWith (34 :: (value ++ [34])) (ascii "\"")) = true := by
      have hend : Bytes.endsWith (34 :: (value ++ [34])) [34] = true :=
        (endsWith_concat (34 :: value) 34 34).2 rfl
      simp [Bytes.startsWith, ascii, hend]
    rw [kept_of_notMem hhash, readBack, if_neg hhash, unquote, if_pos hboth]
    simp

theorem of?_quotedLine (hk : key ∈ toolKeys) (hv : IsQuotable value) (hlen : value.length < 60000) :
    Line.of? (quotedLine key value) = some (.assignment key (kept value)) := by
  have hkeys : ∀ key ∈ toolKeys, key.length < 10 := by decide
  have hshort : ¬ longestLine ≤ (quotedLine key value).length := by
    have := hkeys key hk
    rw [quotedLine_eq]
    simp [longestLine, ascii]
    omega
  obtain ⟨hne, hkey⟩ := toolKeys_bytes hk
  have hcontent := content_quotedLine hk hv
  have hassign := assignment?_kept hk hv
  obtain ⟨b, rest, rfl⟩ := List.exists_cons_of_ne_nil hne
  have hb : ¬ 91 = b := fun h ↦ (hkey b List.mem_cons_self).2.2.2.2 h.symm
  have hheading : heading? (content (quotedLine (b :: rest) value)) = none := by
    rw [hcontent]
    simp [heading?, Bytes.startsWith, ascii, hb]
  rw [Line.of?, if_neg hshort, hheading, hcontent, if_neg (by simp), hassign]
  rfl

theorem readBack_eq_iff (hv : IsQuotable value) : readBack value = value ↔ 35 ∉ value := by
  unfold readBack
  split_ifs with hhash
  · refine ⟨fun he ↦ ?_, fun h ↦ absurd hhash h⟩
    obtain ⟨rest, hr, -⟩ := exists_opened (value.takeWhile (· != 35))
    have hquote : 34 ∈ value := by
      rw [← he, hr]
      exact List.mem_cons_self
    exact absurd rfl (hv 34 hquote).2
  · exact ⟨fun _ ↦ hhash, fun _ ↦ rfl⟩

theorem determined_insert {front back : List Setting} (path raw : Bytes) (hk : key ∈ toolKeys)
    (hback : ∀ s ∈ back, s.sets (ascii "tools") key = false) :
    determined path (front ++ ⟨ascii "tools", key, raw⟩ :: back) =
      { determined path (front ++ back) with
        tools := (determined path (front ++ back)).tools.put key (unquote raw) } := by
  have hself : Setting.sets (ascii "tools") key ⟨ascii "tools", key, raw⟩ = true := by
    simp [Setting.sets]
  have hlast : last? (front ++ ⟨ascii "tools", key, raw⟩ :: back) (ascii "tools") key = some raw :=
    last?_insert hself hback
  have hother : ∀ section_ key', section_ ≠ ascii "tools" ∨ key' ≠ key →
      last? (front ++ ⟨ascii "tools", key, raw⟩ :: back) section_ key' =
        last? (front ++ back) section_ key' := by
    intro section_ key' hne
    refine last?_insert_other ?_
    simp only [Setting.sets, decide_eq_false_iff_not, not_and_or]
    exact hne.imp Ne.symm Ne.symm
  simp only [toolKeys, List.map_cons, List.map_nil, List.mem_cons, List.not_mem_nil, or_false] at hk
  obtain rfl | rfl | rfl | rfl := hk
  all_goals
    simp +decide [determined, Tools.put, hlast, hother]

theorem placeOutDir_tools (m : Manifest) (tools : Tools) :
    ({ m with tools } : Manifest).placeOutDir = { m.placeOutDir with tools } := by
  unfold placeOutDir
  split_ifs <;> rfl

/-- A quoted tool among other lines is set to what is left of its value, and everything else is as
without this line. The value is left as it is exactly when it has no number sign. -/
theorem quoted_tool_is_read {d : Disk} {path : Bytes} {above below : List Bytes}
    {as bs : List Line}
    (hfile : d.read path = .ok (unlines (above ++ quotedLine key value :: below)))
    (hkey : key ∈ toolKeys) (hvalue : IsQuotable value) (hlen : value.length < 60000)
    (habove : Reads above as) (hbelow : Reads below bs) (hlines : ∀ raw ∈ above ++ below, 10 ∉ raw)
    (hsection : sectionAfter [] as = ascii "tools")
    (hvalid : ∀ s ∈ settingsIn [] (as ++ bs), s.IsValid)
    (hlast : ∀ s ∈ settingsIn (ascii "tools") bs, s.sets (ascii "tools") key = false) :
    load d path =
        .ok { (determined path (settingsIn [] (as ++ bs))).placeOutDir with
          tools := (determined path (settingsIn [] (as ++ bs))).tools.put key (readBack value) } ∧
      (readBack value = value ↔ 35 ∉ value) := by
  refine ⟨?_, readBack_eq_iff hvalue⟩
  have hreads : Reads (above ++ quotedLine key value :: below)
      (as ++ .assignment key (kept value) :: bs) := by
    refine habove.append ?_
    unfold Reads
    rw [List.map_cons, of?_quotedLine hkey hvalue hlen, hbelow]
    rfl
  have hten : ∀ raw ∈ above ++ quotedLine key value :: below, 10 ∉ raw := by
    intro raw hm h10
    obtain hm | hm := List.mem_append.1 hm
    · exact hlines raw (List.mem_append_left _ hm) h10
    obtain rfl | hm := List.mem_cons.1 hm
    · exact absurd (quotedLine_printed hkey hvalue 10 h10) (by decide)
    · exact hlines raw (List.mem_append_right _ hm) h10
  have hsettings : settingsIn [] (as ++ .assignment key (kept value) :: bs) =
      settingsIn [] as ++ ⟨ascii "tools", key, kept value⟩ :: settingsIn (ascii "tools") bs := by
    rw [settingsIn_append, hsection, settingsIn]
  rw [settingsIn_append, hsection] at hvalid ⊢
  have hall : ∀ s ∈ settingsIn [] (as ++ .assignment key (kept value) :: bs), s.IsValid := by
    intro s hm
    rw [hsettings, List.mem_append, List.mem_cons] at hm
    obtain hm | rfl | hm := hm
    · exact hvalid s (List.mem_append_left _ hm)
    · exact fun (h : ascii "tools" = ascii "build") ↦ absurd h (by decide)
    · exact hvalid s (List.mem_append_right _ hm)
  have hparse := parse_unlines path (by simp) hten hreads hall
  rw [load, hfile, hsettings, determined_insert path _ hkey hlast, unquote_kept hvalue,
    placeOutDir_tools] at *
  exact hparse

/-- A file in which a heading for tools is not the first one, and a path has blanks in it. -/
def spacedFile : Disk :=
  ⟨[([fileName], .file (ascii "# pinned\n[build]\njobs = 4 # four\n\n[tools]\nlli = \"lli-9\"\n"
    ++ ascii "clang = \" C:/a=b [x] \"\n[build]\nmode = \"llvm\"\n") 0 false)], [], 0⟩

theorem spaced_path_is_read :
    load spacedFile fileName =
        .ok ⟨fileName, ⟨ascii " C:/a=b [x] ", ascii "llvm-as", ascii "llvm-link", ascii "lli-9"⟩,
          .llvm, [], false, 4, false⟩ ∧
      (readBack (ascii " C:/a=b [x] ") = ascii " C:/a=b [x] " ↔ 35 ∉ ascii " C:/a=b [x] ") := by
  have habove : Reads
      (["# pinned", "[build]", "jobs = 4 # four", "", "[tools]", "lli = \"lli-9\""].map ascii)
      [.empty, .heading (ascii "build"), .assignment (ascii "jobs") (ascii "4"), .empty,
        .heading (ascii "tools"), .assignment (ascii "lli") (ascii "\"lli-9\"")] :=
          by decide +kernel
  have hbelow : Reads (["[build]", "mode = \"llvm\"", ""].map ascii)
      [.heading (ascii "build"), .assignment (ascii "mode") (ascii "\"llvm\""), .empty] := by decide
  have h := @quoted_tool_is_read (ascii "clang") (ascii " C:/a=b [x] ") spacedFile fileName _ _ _ _
    (by decide +kernel) (by decide) (by decide +kernel) (by decide) habove hbelow
    (by decide +kernel) (by decide) (by decide +kernel) (by decide +kernel)
  exact h

theorem quoted_path_is_cut :
    parse fileName (ascii "[tools]\nclang = \"/opt/c#/clang\"\n") =
      .ok { usual with path := fileName, tools.clang := ascii "\"/opt/c" } := by
  decide +kernel

end Manifest

end PZero
