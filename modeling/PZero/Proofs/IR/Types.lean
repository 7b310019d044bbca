import PZero.Proofs.IR.Scan

namespace PZero.IR

open Scan (Reads Undigit undigit_of_head)

/-- A text that does not go on with a type that stands before it. -/
structure Ends (rest : Bytes) : Prop where
  star : rest.head? ≠ some 42
  call : ¬ascii " (" <+: rest
  digit : Undigit rest

/-- What is attached behind a type to make another one of it. -/
inductive Suffix
  | star
  | call (args : List Ty) (varArg : Bool)

def argItems (args : List Ty) (varArg : Bool) : List Bytes :=
  Ty.texts args ++ if varArg then [ascii "..."] else []

namespace Suffix

def attach (t : Ty) : Suffix → Ty
  | .star => .ptr t
  | .call args varArg => .func t args varArg

def text : Suffix → Bytes
  | .star => ascii "*"
  | .call args varArg => ascii " (" ++ (commas (argItems args varArg) ++ ascii ")")

def IsWhole : Suffix → Prop
  | .star => True
  | .call args _ => ∀ t ∈ args, t.isWhole = true

theorem text_attach (t : Ty) (s : Suffix) : (s.attach t).text = t.text ++ s.text := by
  cases s with
  | star => rw [attach, Ty.text, text]
  | call args varArg => simp only [attach, Ty.text, text, argItems, List.append_assoc]

theorem text_foldl (ss : List Suffix) (t : Ty) :
    (ss.foldl attach t).text = t.text ++ ss.flatMap text := by
  induction ss generalizing t with
  | nil => exact (List.append_nil _).symm
  | cons s ss ih => rw [List.foldl_cons, ih, text_attach, List.flatMap_cons, List.append_assoc]

end Suffix

namespace Ty

theorem texts_eq_map (ts : List Ty) : texts ts = ts.map text := by
  induction ts with
  | nil => rfl
  | cons t ts ih => rw [texts, ih, List.map_cons]

theorem allWhole_iff {ts : List Ty} : allWhole ts = true ↔ ∀ t ∈ ts, t.isWhole = true := by
  induction ts with
  | nil => simp [allWhole]
  | cons t ts ih => simp [allWhole, ih]

/-- A type with nothing attached to it. -/
def isHead : Ty → Bool
  | .void | .int _ | .float _ | .array _ _ | .struct _ _ => true
  | .ptr _ | .func _ _ _ | .missing => false

theorem exists_head {t : Ty} (h : t.isWhole = true) : ∃ (head : Ty) (ss : List Suffix),
    head.isHead = true ∧ head.isWhole = true ∧ (∀ s ∈ ss, s.IsWhole) ∧
      ss.foldl Suffix.attach head = t := by
  match t with
  | .ptr elem =>
    obtain ⟨head, ss, hh, hw, hs, rfl⟩ := exists_head (t := elem) h
    exact ⟨head, ss ++ [.star], hh, hw, List.forall_mem_append.2 ⟨hs, by simp [Suffix.IsWhole]⟩,
      by rw [List.foldl_append]; rfl⟩
  | .func result args varArg =>
    rw [isWhole, Bool.and_eq_true] at h
    obtain ⟨head, ss, hh, hw, hs, rfl⟩ := exists_head (t := result) h.1
    have hargs : (Suffix.call args varArg).IsWhole := allWhole_iff.1 h.2
    exact ⟨head, ss ++ [.call args varArg], hh, hw,
      List.forall_mem_append.2 ⟨hs, List.forall_mem_singleton.2 hargs⟩,
      by rw [List.foldl_append]; rfl⟩
  | .void | .int _ | .float _ | .array _ _ | .struct _ _ =>
    exact ⟨_, [], rfl, h, List.forall_mem_nil _, rfl⟩
  | .missing => cases h

/-- The first byte of a head. -/
def mark : Ty → UInt8
  | .void => 118
  | .int _ => 105
  | .float .half => 104
  | .float .single => 102
  | .float .double => 100
  | .array _ _ => 91
  | .struct packed _ => if packed then 60 else 123
  | _ => 0

theorem head?_text {t : Ty} (h : t.isHead = true) (rest : Bytes) :
    (t.text ++ rest).head? = some t.mark := by
  cases t with
  | void => rfl
  | int bits => rfl
  | float kind => cases kind <;> rfl
  | array size elem => rfl
  | struct packed elems => cases packed <;> rfl
  | ptr | func | missing => cases h

/-- The text of a type tells it, and where it ends. -/
def Unique (t : Ty) : Prop := ∀ ⦃u : Ty⦄ ⦃rest rest' : Bytes⦄, u.isWhole = true → Ends rest →
  Ends rest' → t.text ++ rest = u.text ++ rest' → t = u ∧ rest = rest'

theorem text_starts {t : Ty} (h : t.isWhole = true) (rest : Bytes) :
    ∃ b, (t.text ++ rest).head? = some b ∧ b ∈ ascii "vihfd[\x7b<" := by
  obtain ⟨head, ss, hh, -, -, rfl⟩ := exists_head h
  rw [Suffix.text_foldl, List.append_assoc, head?_text hh]
  refine ⟨_, rfl, ?_⟩
  cases head with
  | float kind => cases kind <;> decide
  | struct packed elems => cases packed <;> simp only [mark] <;> decide
  | ptr | func | missing => cases hh
  | _ => simp only [mark]; decide

end Ty

section Items

/-- What ends a list of types. -/
def Closing (close : Bytes) : Prop := close = ascii " \x7d" ∨ close = ascii ")"

/-- An item of a list whose text tells it, and where it ends. -/
def Cuts (x y : Bytes) : Prop := ∀ ⦃rest rest' : Bytes⦄, Ends rest → Ends rest' →
  x ++ rest = y ++ rest' → x = y ∧ rest = rest'

def Starts (x : Bytes) : Prop := ∀ rest, ∃ b, (x ++ rest).head? = some b ∧ b ∈ ascii "vihfd[\x7b<."

variable {close rest rest' : Bytes}

theorem ends_of_head {b : UInt8} (h : rest.head? = some b)
    (hb : b ≠ 42 ∧ b ≠ 32 ∧ Bytes.isDigit b = false) : Ends rest where
  star := Scan.ne_of_head h hb.1
  call := by
    rintro ⟨tail, rfl⟩
    exact hb.2.1 (Option.some.inj h).symm
  digit := undigit_of_head h hb.2.2

theorem ends_nil : Ends [] := ⟨nofun, nofun, nofun⟩

theorem ends_comma (rest : Bytes) : Ends (ascii ", " ++ rest) := ends_of_head rfl (by decide)

theorem Closing.ends (h : Closing close) (rest : Bytes) : Ends (close ++ rest) := by
  rcases h with rfl | rfl
  · refine ⟨Scan.ne_of_head rfl (by decide), ?_, undigit_of_head rfl (by decide)⟩
    rintro ⟨tail, h⟩
    cases h
  · exact ends_of_head rfl (by decide)

theorem Closing.ne_comma (h : Closing close) (rest rest' : Bytes) :
    close ++ rest ≠ ascii ", " ++ rest' := by
  rcases h with rfl | rfl <;> nofun

theorem Closing.ne_item (h : Closing close) {x : Bytes} (hx : Starts x) (rest rest' : Bytes) :
    close ++ rest ≠ x ++ rest' := by
  intro he
  obtain ⟨b, hb, hm⟩ := hx rest'
  rw [← he] at hb
  rcases h with rfl | rfl <;> cases hb <;> exact absurd hm (by decide)

/-- What stands behind the first item of a list. -/
def behind (close rest : Bytes) : List Bytes → Bytes
  | [] => close ++ rest
  | x :: xs => ascii ", " ++ (commas (x :: xs) ++ (close ++ rest))

theorem commas_cons (x : Bytes) (xs : List Bytes) (close rest : Bytes) :
    commas (x :: xs) ++ (close ++ rest) = x ++ behind close rest xs := by
  cases xs with
  | nil => rw [Scan.commas_singleton, behind]
  | cons y ys => rw [Scan.commas_cons_cons, List.append_assoc, List.append_assoc, behind]

theorem Closing.ends_behind (h : Closing close) (xs : List Bytes) :
    Ends (behind close rest xs) := by
  cases xs with
  | nil => exact h.ends rest
  | cons x xs => exact ends_comma _

theorem commas_unique (h : Closing close) {xs ys : List Bytes} (hx : ∀ x ∈ xs, Starts x)
    (hy : ∀ y ∈ ys, Starts y) (hxy : ∀ x ∈ xs, ∀ y ∈ ys, Cuts x y)
    (he : commas xs ++ (close ++ rest) = commas ys ++ (close ++ rest')) :
    xs = ys ∧ rest = rest' := by
  induction xs generalizing ys with
  | nil =>
    cases ys with
    | nil => exact ⟨rfl, List.append_cancel_left he⟩
    | cons y ys =>
      rw [commas_cons] at he
      exact absurd he (h.ne_item (hy y List.mem_cons_self) _ _)
  | cons x xs ih =>
    cases ys with
    | nil =>
      rw [commas_cons] at he
      exact absurd he.symm (h.ne_item (hx x List.mem_cons_self) _ _)
    | cons y ys =>
      rw [commas_cons, commas_cons] at he
      obtain ⟨rfl, hrest⟩ :=
        hxy x List.mem_cons_self y List.mem_cons_self (h.ends_behind xs) (h.ends_behind ys) he
      cases xs with
      | nil =>
        cases ys with
        | nil => exact ⟨rfl, List.append_cancel_left hrest⟩
        | cons y' ys => exact absurd hrest (h.ne_comma _ _)
      | cons x' xs =>
        cases ys with
        | nil => exact absurd hrest.symm (h.ne_comma _ _)
        | cons y' ys =>
          obtain ⟨hlist, hrest⟩ := ih (fun x hm ↦ hx x (.tail _ hm)) (fun y hm ↦ hy y (.tail _ hm))
            (fun x hm y hm' ↦ hxy x (.tail _ hm) y (.tail _ hm')) (List.append_cancel_left hrest)
          exact ⟨by rw [hlist], hrest⟩

end Items

section Attached

variable {rest rest' : Bytes} {args args' : List Ty} {varArg varArg' : Bool}

theorem starts_type {t : Ty} (h : t.isWhole = true) : Starts t.text := by
  intro rest
  obtain ⟨b, hb, hm⟩ := t.text_starts h rest
  exact ⟨b, hb, List.mem_append_left (ascii ".") hm⟩

theorem mem_argItems {x : Bytes} (h : x ∈ argItems args varArg) :
    (∃ t ∈ args, x = t.text) ∨ x = ascii "..." := by
  rw [argItems, Ty.texts_eq_map, List.mem_append] at h
  rcases h with h | h
  · obtain ⟨t, ht, rfl⟩ := List.mem_map.1 h
    exact .inl ⟨t, ht, rfl⟩
  · split at h
    · exact .inr (List.mem_singleton.1 h)
    · cases h

theorem starts_argItems (h : ∀ t ∈ args, t.isWhole = true) :
    ∀ x ∈ argItems args varArg, Starts x := by
  intro x hx
  rcases mem_argItems hx with ⟨t, ht, rfl⟩ | rfl
  · exact starts_type (h t ht)
  · exact fun rest ↦ ⟨46, rfl, by decide⟩

theorem dots_ne {t : Ty} (h : t.isWhole = true) (rest rest' : Bytes) :
    ascii "..." ++ rest ≠ t.text ++ rest' := by
  intro he
  obtain ⟨b, hb, hm⟩ := t.text_starts h rest'
  rw [← he] at hb
  cases hb
  exact absurd hm (by decide)

theorem cuts_argItems (hu : ∀ t ∈ args, t.Unique) (h : ∀ t ∈ args, t.isWhole = true)
    (h' : ∀ t ∈ args', t.isWhole = true) :
    ∀ x ∈ argItems args varArg, ∀ y ∈ argItems args' varArg', Cuts x y := by
  intro x hx y hy rest rest' hr hr' he
  rcases mem_argItems hx with ⟨t, ht, rfl⟩ | rfl <;>
    rcases mem_argItems hy with ⟨u, hu', rfl⟩ | rfl
  · obtain ⟨rfl, hrest⟩ := hu t ht (h' u hu') hr hr' he
    exact ⟨rfl, hrest⟩
  · exact absurd he.symm (dots_ne (h t ht) _ _)
  · exact absurd he (dots_ne (h' u hu') _ _)
  · exact ⟨rfl, List.append_cancel_left he⟩

theorem argItems_inj (hu : ∀ t ∈ args, t.Unique) (h : ∀ t ∈ args, t.isWhole = true)
    (h' : ∀ t ∈ args', t.isWhole = true) (he : argItems args varArg = argItems args' varArg') :
    args = args' ∧ varArg = varArg' := by
  have hdots : ∀ {t : Ty} {items : List Bytes} {varArg : Bool}, t.isWhole = true →
      (if varArg then [ascii "..."] else []) ≠ t.text :: items := by
    intro t items varArg ht hi
    split at hi
    · refine dots_ne ht [] [] ?_
      rw [(List.cons.inj hi).1]
    · cases hi
  -- No type is spelled as the dots are, so both lists of types end at the same place.
  induction args generalizing args' with
  | nil =>
    cases args' with
    | nil => cases varArg <;> cases varArg' <;> first | exact ⟨rfl, rfl⟩ | cases he
    | cons t ts => exact absurd he (hdots (h' t List.mem_cons_self))
  | cons t ts ih =>
    cases args' with
    | nil => exact absurd he.symm (hdots (h t List.mem_cons_self))
    | cons u us =>
      obtain ⟨htext, hrest⟩ := List.cons.inj he
      obtain ⟨rfl, -⟩ := hu t List.mem_cons_self (h' u List.mem_cons_self) ends_nil ends_nil
        (congrArg (· ++ []) htext)
      obtain ⟨rfl, hdots'⟩ := ih (fun t ht ↦ hu t (.tail _ ht)) (fun t ht ↦ h t (.tail _ ht))
        (fun t ht ↦ h' t (.tail _ ht)) hrest
      exact ⟨rfl, hdots'⟩

def Suffix.IsUnique : Suffix → Prop
  | .star => True
  | .call args _ => ∀ t ∈ args, t.isWhole = true ∧ t.Unique

theorem Suffix.text_unique {s s' : Suffix} (hs : s.IsUnique) (hs' : s'.IsWhole)
    (he : s.text ++ rest = s'.text ++ rest') : s = s' ∧ rest = rest' := by
  cases s with
  | star =>
    cases s' with
    | star => exact ⟨rfl, List.append_cancel_left he⟩
    | call args' varArg' => cases he
  | call args varArg =>
    cases s' with
    | star => cases he
    | call args' varArg' =>
      simp only [text, List.append_assoc] at he
      have hwhole : ∀ t ∈ args, t.isWhole = true := fun t ht ↦ (hs t ht).1
      have hunique : ∀ t ∈ args, t.Unique := fun t ht ↦ (hs t ht).2
      obtain ⟨hitems, hrest⟩ := commas_unique (.inr rfl) (starts_argItems hwhole)
        (starts_argItems hs') (cuts_argItems hunique hwhole hs') (List.append_cancel_left he)
      obtain ⟨rfl, rfl⟩ := argItems_inj hunique hwhole hs' hitems
      exact ⟨rfl, hrest⟩

theorem Ends.ne_suffix (h : Ends rest) (s : Suffix) (rest' : Bytes) : rest ≠ s.text ++ rest' := by
  rintro rfl
  cases s with
  | star => exact h.star rfl
  | call args varArg => exact h.call ⟨_, (List.append_assoc _ _ _).symm⟩

theorem suffixes_unique {ss ss' : List Suffix} (hs : ∀ s ∈ ss, s.IsUnique)
    (hs' : ∀ s ∈ ss', s.IsWhole) (hr : Ends rest) (hr' : Ends rest')
    (he : ss.flatMap Suffix.text ++ rest = ss'.flatMap Suffix.text ++ rest') :
    ss = ss' ∧ rest = rest' := by
  induction ss generalizing ss' with
  | nil =>
    cases ss' with
    | nil => exact ⟨rfl, he⟩
    | cons s' ss' =>
      rw [List.flatMap_cons, List.append_assoc] at he
      exact absurd he (hr.ne_suffix s' _)
  | cons s ss ih =>
    cases ss' with
    | nil =>
      rw [List.flatMap_cons, List.append_assoc] at he
      exact absurd he.symm (hr'.ne_suffix s _)
    | cons s' ss' =>
      rw [List.flatMap_cons, List.flatMap_cons, List.append_assoc, List.append_assoc] at he
      obtain ⟨rfl, htail⟩ :=
        Suffix.text_unique (hs s List.mem_cons_self) (hs' s' List.mem_cons_self) he
      obtain ⟨rfl, hrest⟩ := ih (fun s h ↦ hs s (.tail _ h)) (fun s h ↦ hs' s (.tail _ h)) htail
      exact ⟨rfl, hrest⟩

theorem undigit_suffixes (ss : List Suffix) (h : Ends rest) :
    Undigit (ss.flatMap Suffix.text ++ rest) := by
  cases ss with
  | nil => exact h.digit
  | cons s ss => cases s <;> exact undigit_of_head rfl (by decide)

end Attached

section Heads

variable {rest rest' : Bytes}

theorem int_unique {m n : Int} (hr : Undigit rest) (hr' : Undigit rest')
    (he : Bytes.ofInt m ++ rest = Bytes.ofInt n ++ rest') : m = n ∧ rest = rest' := by
  have hm := Scan.reads_int m rest hr
  rw [he, Scan.reads_int n rest' hr'] at hm
  cases hm
  exact ⟨rfl, rfl⟩

def Ty.HasUniqueParts : Ty → Prop
  | .array _ elem => elem.Unique
  | .struct _ elems => ∀ t ∈ elems, t.isWhole = true ∧ t.Unique
  | _ => True

theorem texts_eq_argItems (ts : List Ty) : Ty.texts ts = argItems ts false := by simp [argItems]

theorem fields_unique {elems elems' : List Ty} (h : ∀ t ∈ elems, t.isWhole = true ∧ t.Unique)
    (h' : ∀ t ∈ elems', t.isWhole = true)
    (he : commas (Ty.texts elems) ++ (ascii " \x7d" ++ rest) =
      commas (Ty.texts elems') ++ (ascii " \x7d" ++ rest')) : elems = elems' ∧ rest = rest' := by
  have hwhole : ∀ t ∈ elems, t.isWhole = true := fun t ht ↦ (h t ht).1
  have hunique : ∀ t ∈ elems, t.Unique := fun t ht ↦ (h t ht).2
  rw [texts_eq_argItems, texts_eq_argItems] at he
  obtain ⟨hitems, hrest⟩ := commas_unique (.inl rfl) (starts_argItems hwhole)
    (starts_argItems h') (cuts_argItems hunique hwhole h') he
  exact ⟨(argItems_inj hunique hwhole h' hitems).1, hrest⟩

theorem int_text_unique {m n : Int} (hr : Undigit rest) (hr' : Undigit rest')
    (he : (Ty.int m).text ++ rest = (Ty.int n).text ++ rest') : m = n ∧ rest = rest' := by
  simp only [Ty.text, List.append_assoc] at he
  exact int_unique hr hr' (List.append_cancel_left he)

theorem array_text_unique {m n : Int} {t u : Ty} (ht : t.Unique) (hu : u.isWhole = true)
    (he : (Ty.array m t).text ++ rest = (Ty.array n u).text ++ rest') :
    (m = n ∧ t = u) ∧ rest = rest' := by
  simp only [Ty.text, List.append_assoc] at he
  have hby : ∀ text : Bytes, Undigit (ascii " x " ++ text) :=
    fun _ ↦ undigit_of_head rfl (by decide)
  have hclose : ∀ text : Bytes, Ends (ascii "]" ++ text) := fun _ ↦ ends_of_head rfl (by decide)
  obtain ⟨rfl, helem⟩ := int_unique (hby _) (hby _) (List.append_cancel_left he)
  obtain ⟨rfl, hrest⟩ := ht hu (hclose rest) (hclose rest') (List.append_cancel_left helem)
  exact ⟨⟨rfl, rfl⟩, List.append_cancel_left hrest⟩

theorem struct_text_unique {packed : Bool} {ts us : List Ty}
    (ht : ∀ t ∈ ts, t.isWhole = true ∧ t.Unique) (hu : ∀ u ∈ us, u.isWhole = true)
    (he : (Ty.struct packed ts).text ++ rest = (Ty.struct packed us).text ++ rest') :
    ts = us ∧ rest = rest' := by
  cases packed with
  | false =>
    simp only [Ty.text, Bool.false_eq_true, if_false, List.append_assoc] at he
    exact fields_unique ht hu (List.append_cancel_left he)
  | true =>
    simp only [Ty.text, if_true, List.append_assoc] at he
    obtain ⟨rfl, hrest⟩ :=
      fields_unique ht hu (List.append_cancel_left (List.append_cancel_left he))
    exact ⟨rfl, List.append_cancel_left hrest⟩

theorem Ty.mark_cases {t u : Ty} (ht : t.isHead = true) (hu : u.isHead = true)
    (h : t.mark = u.mark) :
    t = u ∨ (∃ m n, t = .int m ∧ u = .int n) ∨
      (∃ m elem n elem', t = .array m elem ∧ u = .array n elem') ∨
      ∃ packed ts us, t = .struct packed ts ∧ u = .struct packed us := by
  rcases t with _ | m | (_ | _ | _) | _ | ⟨m, elem⟩ | ⟨_ | _, ts⟩ | _ | _ <;>
    rcases u with _ | n | (_ | _ | _) | _ | ⟨n, elem'⟩ | ⟨_ | _, us⟩ | _ | _ <;>
    simp [mark, isHead] at h ht hu ⊢

theorem head_unique {t u : Ty} (ht : t.isHead = true) (hu : u.isHead = true)
    (hp : t.HasUniqueParts) (hw : u.isWhole = true) (hr : Undigit rest) (hr' : Undigit rest')
    (he : t.text ++ rest = u.text ++ rest') : t = u ∧ rest = rest' := by
  have hmark : t.mark = u.mark := by
    have h := Ty.head?_text ht rest
    rw [he, Ty.head?_text hu] at h
    exact (Option.some.inj h).symm
  rcases Ty.mark_cases ht hu hmark with rfl | ⟨m, n, rfl, rfl⟩ | ⟨m, elem, n, elem', rfl, rfl⟩ |
    ⟨packed, ts, us, rfl, rfl⟩
  · exact ⟨rfl, List.append_cancel_left he⟩
  · obtain ⟨rfl, hrest⟩ := int_text_unique hr hr' he
    exact ⟨rfl, hrest⟩
  · have hw' : elem'.isWhole = true := hw
    obtain ⟨⟨rfl, rfl⟩, hrest⟩ := array_text_unique hp hw' he
    exact ⟨rfl, hrest⟩
  · obtain ⟨rfl, hrest⟩ := struct_text_unique hp (Ty.allWhole_iff.1 hw) he
    exact ⟨rfl, hrest⟩

theorem unique_of_head {head : Ty} {ss : List Suffix} (hh : head.isHead = true)
    (hp : head.HasUniqueParts) (hs : ∀ s ∈ ss, s.IsUnique) :
    (ss.foldl Suffix.attach head).Unique := by
  intro u rest rest' hu hr hr' he
  obtain ⟨head', ss', hh', hw', hs', rfl⟩ := Ty.exists_head hu
  rw [Suffix.text_foldl, Suffix.text_foldl, List.append_assoc, List.append_assoc] at he
  obtain ⟨rfl, htail⟩ :=
    head_unique hh hh' hp hw' (undigit_suffixes ss hr) (undigit_suffixes ss' hr') he
  obtain ⟨rfl, hrest⟩ := suffixes_unique hs hs' hr hr' htail
  exact ⟨rfl, hrest⟩

mutual

theorem unique_attach {t : Ty} (h : t.isWhole = true) {ss : List Suffix}
    (hs : ∀ s ∈ ss, s.IsUnique) : (ss.foldl Suffix.attach t).Unique := by
  -- A pointer and a function start with the text of the type inside. The induction goes down to the
  -- head and gathers what is attached on its way.
  match t with
  | .void | .int _ | .float _ => exact unique_of_head rfl trivial hs
  | .array size elem =>
    have helem : elem.Unique := unique_attach (t := elem) h (List.forall_mem_nil _)
    exact unique_of_head rfl helem hs
  | .struct packed elems =>
    have helems : ∀ t ∈ elems, t.isWhole = true ∧ t.Unique := unique_of_allWhole h
    exact unique_of_head rfl helems hs
  | .ptr elem =>
    have hs' : ∀ s ∈ Suffix.star :: ss, s.IsUnique := List.forall_mem_cons.2 ⟨trivial, hs⟩
    exact unique_attach (t := elem) h hs'
  | .func result args varArg =>
    rw [Ty.isWhole, Bool.and_eq_true] at h
    have hargs : (Suffix.call args varArg).IsUnique := unique_of_allWhole h.2
    have hs' : ∀ s ∈ Suffix.call args varArg :: ss, s.IsUnique :=
      List.forall_mem_cons.2 ⟨hargs, hs⟩
    exact unique_attach (t := result) h.1 hs'
  | .missing => cases h

theorem unique_of_allWhole {ts : List Ty} (h : Ty.allWhole ts = true) :
    ∀ t ∈ ts, t.isWhole = true ∧ t.Unique := by
  match ts with
  | [] => exact List.forall_mem_nil _
  | t :: ts =>
    rw [Ty.allWhole, Bool.and_eq_true] at h
    have ht : t.Unique := unique_attach (t := t) h.1 (List.forall_mem_nil _)
    exact List.forall_mem_cons.2 ⟨⟨h.1, ht⟩, unique_of_allWhole h.2⟩

end

end Heads

namespace Ty

theorem text_inj {a b : Ty} (ha : a.isWhole = true) (hb : b.isWhole = true)
    (h : a.text = b.text) : a = b :=
  (unique_attach ha (List.forall_mem_nil _) hb ends_nil ends_nil (congrArg (· ++ []) h)).1

theorem not_isMissing {t : Ty} (h : t.isWhole = true) : t.isMissing = false := by
  cases t with
  | missing => cases h
  | _ => rfl

/-- Types with no part missing are compared by their spelling, which tells them apart. -/
theorem same_iff_eq {a b : Ty} (ha : a.isWhole = true) (hb : b.isWhole = true) :
    a.same b = true ↔ a = b := by
  simp only [same, not_isMissing ha, not_isMissing hb, Bool.or_self, Bool.false_eq_true, if_false,
    decide_eq_true_iff]
  exact ⟨text_inj ha hb, congrArg text⟩

theorem gathered_ne_spread :
    let gathered : Ty := .ptr (.func (.ptr (.struct true []))
      [.struct false [.int 8, .func .void [] true], .array 2 (.int 32)] true)
    let spread : Ty := .ptr (.func (.ptr (.struct true []))
      [.int 8, .func .void [] true, .array 2 (.int 32)] true)
    gathered.text = ascii "<{  }>* ({ i8, void (...) }, [2 x i32], ...)*" ∧
      spread.text = ascii "<{  }>* (i8, void (...), [2 x i32], ...)*" ∧
      gathered.same gathered = true ∧ ¬gathered.same spread = true := by
  intro gathered spread
  have hg : gathered.isWhole = true := rfl
  have hs : spread.isWhole = true := rfl
  refine ⟨by decide +kernel, by decide +kernel, (same_iff_eq hg hg).2 rfl, fun h ↦ ?_⟩
  have heq : gathered = spread := (same_iff_eq hg hs).1 h
  simp [gathered, spread] at heq

end Ty

end PZero.IR
