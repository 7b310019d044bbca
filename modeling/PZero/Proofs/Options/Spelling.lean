import Mathlib.Tactic.Common
import PZero.Options
import PZero.Proofs.Text.Cut

namespace PZero.Options

/-- Whether `--` stands where an argument is looked at. Behind a flag that takes its value from the
next argument it is that value. -/
def reachesSeparator : List Bytes → Bool
  | [] => false
  | [arg] => arg = ascii "--"
  | arg :: next :: rest =>
    arg = ascii "--" ||
      if arg ∈ valuedFlags then reachesSeparator rest else reachesSeparator (next :: rest)

def joined (flag value : Bytes) : Bytes := flag ++ ascii "=" ++ value

def take (o : Options) (arg : Bytes) : Except Error Options :=
  match switch? arg, splitValue arg with
  | some change, _ => .ok (change o)
  | none, (flag, some value) =>
    if flag ∈ valuedFlags then o.assign flag value
    else if Bytes.startsWith arg (ascii "-") then .error (.unknownFlag arg)
    else .ok { o with files := o.files ++ [arg] }
  | none, (_, none) =>
    if Bytes.startsWith arg (ascii "-") then .error (.unknownFlag arg)
    else .ok { o with files := o.files ++ [arg] }

theorem fixed_of_valued {flag : Bytes} (h : flag ∈ valuedFlags) :
    flag ≠ ascii "--" ∧ switch? flag = none ∧ 61 ∉ flag := by
  have hall : ∀ flag ∈ valuedFlags,
      flag ≠ ascii "--" ∧ (switch? flag).isNone ∧ 61 ∉ flag := by decide
  obtain ⟨hs, hn, he⟩ := hall flag h
  exact ⟨hs, Option.isNone_iff_eq_none.1 hn, he⟩

theorem splitValue_of_not_mem {arg : Bytes} (h : 61 ∉ arg) : splitValue arg = (arg, none) := by
  rw [splitValue, Bytes.cutAtByte_eq_none h]

theorem splitValue_joined {flag : Bytes} (h : 61 ∉ flag) (value : Bytes) :
    splitValue (joined flag value) = (flag, some value) := by
  have hj : joined flag value = flag ++ 61 :: value := by simp [joined, ascii]
  rw [splitValue, hj, Bytes.cutAtByte_append h]

theorem fixed_of_joined (flag value : Bytes) :
    joined flag value ≠ ascii "--" ∧ switch? (joined flag value) = none ∧
      joined flag value ∉ valuedFlags := by
  have he : 61 ∈ joined flag value := by simp [joined, ascii]
  have hne : ∀ text : String, 61 ∉ ascii text → joined flag value ≠ ascii text :=
    fun text ht heq ↦ ht (heq ▸ he)
  refine ⟨hne _ (by decide), ?_, fun hm ↦ (fixed_of_valued hm).2.2 he⟩
  simp only [switch?, hne _ (show 61 ∉ ascii "--interp" by decide),
    hne _ (show 61 ∉ ascii "--compile" by decide), hne _ (show 61 ∉ ascii "--force" by decide),
    hne _ (show 61 ∉ ascii "-f" by decide), hne _ (show 61 ∉ ascii "--keep-ll" by decide),
    hne _ (show 61 ∉ ascii "--verify" by decide), hne _ (show 61 ∉ ascii "-v" by decide),
    hne _ (show 61 ∉ ascii "--verbose" by decide), or_self, if_false]

section Steps

variable (o : Options) (rest : List Bytes)

theorem parseFrom_alone {arg : Bytes} (hs : arg ≠ ascii "--") (hf : arg ∉ valuedFlags) :
    parseFrom o (arg :: rest) = o.take arg >>= (parseFrom · rest) := by
  rw [parseFrom, if_neg hs, take]
  cases switch? arg with
  | some change => rfl
  | none =>
    cases hv : splitValue arg with
    | mk flag value =>
      cases value with
      | some value =>
        dsimp only
        split
        · rfl
        · split <;> rfl
      | none =>
        have harg : flag = arg := by
          unfold splitValue at hv
          split at hv <;> simp_all
        dsimp only
        rw [harg, if_neg hf]
        split <;> rfl

theorem parseFrom_apart {flag : Bytes} (hf : flag ∈ valuedFlags) (value : Bytes) :
    parseFrom o (flag :: value :: rest) = o.assign flag value >>= (parseFrom · rest) := by
  obtain ⟨hs, hw, he⟩ := fixed_of_valued hf
  rw [parseFrom, if_neg hs, hw, splitValue_of_not_mem he]
  dsimp only
  rw [if_pos hf]

theorem parseFrom_missing {flag : Bytes} (hf : flag ∈ valuedFlags) :
    parseFrom o [flag] = .error (.missingValue flag) := by
  obtain ⟨hs, hw, he⟩ := fixed_of_valued hf
  rw [parseFrom, if_neg hs, hw, splitValue_of_not_mem he]
  dsimp only
  rw [if_pos hf]

theorem parseFrom_joined {flag : Bytes} (hf : flag ∈ valuedFlags) (value : Bytes) :
    parseFrom o (joined flag value :: rest) = o.assign flag value >>= (parseFrom · rest) := by
  obtain ⟨hs, hw, hn⟩ := fixed_of_joined flag value
  have ht : o.take (joined flag value) = o.assign flag value := by
    rw [take, hw, splitValue_joined (fixed_of_valued hf).2.2]
    exact if_pos hf
  rw [parseFrom_alone o rest hs hn, ht]

end Steps

theorem bind_ok {α : Type} {x : Except Error Options} {f : Options → Except Error α} {a : α}
    (h : x >>= f = .ok a) : ∃ o, x = .ok o ∧ f o = .ok a := by
  cases x with
  | error e => cases h
  | ok o => exact ⟨o, rfl, h⟩

theorem parseFrom_append {o o' : Options} {front : List Bytes} (rest : List Bytes)
    (h : parseFrom o front = .ok o') (hs : reachesSeparator front = false) :
    parseFrom o (front ++ rest) = parseFrom o' rest := by
  fun_induction reachesSeparator front generalizing o with
  | case1 =>
    cases h
    rfl
  | case2 arg =>
    have hne : arg ≠ ascii "--" := of_decide_eq_false hs
    by_cases hf : arg ∈ valuedFlags
    · rw [parseFrom_missing o hf] at h
      cases h
    · rw [parseFrom_alone o [] hne hf] at h
      obtain ⟨o₁, ht, h⟩ := bind_ok h
      cases h
      rw [List.singleton_append, parseFrom_alone o rest hne hf, ht]
      rfl
  | case3 arg next tail ih_apart ih_alone =>
    obtain ⟨hne, hs⟩ := Bool.or_eq_false_iff.1 hs
    have hne : arg ≠ ascii "--" := of_decide_eq_false hne
    by_cases hf : arg ∈ valuedFlags
    · rw [if_pos hf] at hs
      rw [parseFrom_apart o tail hf] at h
      obtain ⟨o₁, ha, h⟩ := bind_ok h
      rw [List.cons_append, List.cons_append, parseFrom_apart o (tail ++ rest) hf, ha]
      exact ih_apart h hs
    · rw [if_neg hf] at hs
      rw [parseFrom_alone o (next :: tail) hne hf] at h
      obtain ⟨o₁, ht, h⟩ := bind_ok h
      rw [List.cons_append, parseFrom_alone o _ hne hf, ht]
      exact ih_alone h hs

/-- A flag with a value does the same in both spellings, whatever its value looks like and whatever
follows: it is assigned, and reading goes on with what follows. -/
theorem spellings_agree {flag : Bytes} (hf : flag ∈ valuedFlags) (value : Bytes)
    {front : List Bytes} {o : Options} (ha : parse front = .ok o)
    (hs : reachesSeparator front = false) (rest : List Bytes) :
    parse (front ++ [joined flag value] ++ rest) = parse (front ++ [flag, value] ++ rest) ∧
      parse (front ++ [flag, value] ++ rest) = o.assign flag value >>= (parseFrom · rest) := by
  have hjoined : parse (front ++ [joined flag value] ++ rest) =
      o.assign flag value >>= (parseFrom · rest) := by
    rw [List.append_assoc, List.singleton_append, parse, parseFrom_append _ ha hs,
      parseFrom_joined o rest hf]
  have hapart : parse (front ++ [flag, value] ++ rest) =
      o.assign flag value >>= (parseFrom · rest) := by
    rw [List.append_assoc, parse, parseFrom_append _ ha hs]
    exact parseFrom_apart o rest hf value
  exact ⟨hjoined.trans hapart.symm, hapart⟩

theorem dashed_value_agrees :
    parse [ascii "--out-dir", ascii "--", ascii "-f", ascii "-o=--jobs=x=y", ascii "a.p0"] =
        parse [ascii "--out-dir", ascii "--", ascii "-f", ascii "-o", ascii "--jobs=x=y",
          ascii "a.p0"] ∧
      parse [ascii "--out-dir", ascii "--", ascii "-f", ascii "-o", ascii "--jobs=x=y",
          ascii "a.p0"] =
        .ok { initial with
          force := true
          outDir := ascii "--jobs=x=y"
          files := [ascii "a.p0"] } := by
  have hf : ascii "-o" ∈ valuedFlags := by decide
  have ha : parse [ascii "--out-dir", ascii "--", ascii "-f"] =
      .ok { initial with force := true, outDir := ascii "--" } := by decide +kernel
  have hs : reachesSeparator [ascii "--out-dir", ascii "--", ascii "-f"] = false := by
    decide +kernel
  exact ⟨(spellings_agree hf (ascii "--jobs=x=y") ha hs [ascii "a.p0"]).1,
    (spellings_agree hf (ascii "--jobs=x=y") ha hs [ascii "a.p0"]).2⟩

end PZero.Options
