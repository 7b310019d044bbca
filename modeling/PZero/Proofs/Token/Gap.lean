import PZero.Proofs.Surface.Lexemes

namespace PZero.Token

def StartsMark (text : Bytes) : Prop := ascii "/*" <+: text ∨ ascii "*/" <+: text

/-- What stands inside a block comment: block comments and bytes at which no mark starts, read from
left to right. -/
inductive Inside : Bytes → Prop
  | nil : Inside []
  | byte {b : UInt8} {inside : Bytes} (hb : ¬StartsMark (b :: (inside ++ ascii "*/")))
      (hi : Inside inside) : Inside (b :: inside)
  | nested {inner inside : Bytes} (hn : Inside inner) (hi : Inside inside) :
    Inside (ascii "/*" ++ (inner ++ (ascii "*/" ++ inside)))

def IsBlockComment (text : Bytes) : Prop :=
  ∃ inside, text = ascii "/*" ++ (inside ++ ascii "*/") ∧ Inside inside

/-- A text that starts with a block comment which is never closed. -/
def Unclosed (text : Bytes) : Prop :=
  ascii "/*" <+: text ∧ ∀ comment, IsBlockComment comment → ¬comment <+: text

/-- A gap with the text that follows it. A line comment goes up to a newline or the end. -/
inductive Gap : Bytes → Bytes → Prop
  | nil {rest : Bytes} : Gap [] rest
  | blank {b : UInt8} {gap rest : Bytes} (hb : b ≤ 32) (hg : Gap gap rest) : Gap (b :: gap) rest
  | line {text gap rest : Bytes} (ht : 10 ∉ text) (he : ∀ b ∈ (gap ++ rest).head?, b = 10)
      (hg : Gap gap rest) : Gap (ascii "//" ++ (text ++ gap)) rest
  | block {comment gap rest : Bytes} (hc : IsBlockComment comment) (hg : Gap gap rest) :
    Gap (comment ++ gap) rest

theorem opening_eq : ascii "/*" = [47, 42] := rfl

theorem closing_eq : ascii "*/" = [42, 47] := rfl

theorem startsMark_cons_cons {b c : UInt8} {rest : Bytes} :
    StartsMark (b :: c :: rest) ↔ b = 47 ∧ c = 42 ∨ b = 42 ∧ c = 47 := by
  simp [StartsMark, opening_eq, closing_eq, eq_comm]

theorem startsMark_append {b : UInt8} {text : Bytes} (h : text ≠ []) (tail : Bytes) :
    StartsMark (b :: (text ++ tail)) ↔ StartsMark (b :: text) := by
  cases text with
  | nil => exact absurd rfl h
  | cons c text => rw [List.cons_append, startsMark_cons_cons, startsMark_cons_cons]

theorem commentWidth_opening (depth : Nat) (rest : Bytes) :
    commentWidth depth (47 :: 42 :: rest) = (commentWidth (depth + 1) rest).map (· + 2) := rfl

theorem commentWidth_closing (depth : Nat) (rest : Bytes) :
    commentWidth depth (42 :: 47 :: rest) =
      if depth ≤ 1 then some 2 else (commentWidth (depth - 1) rest).map (· + 2) := rfl

theorem commentWidth_byte {b : UInt8} {rest : Bytes} (h : ¬StartsMark (b :: rest)) (depth : Nat) :
    commentWidth depth (b :: rest) = (commentWidth depth rest).map (· + 1) := by
  rw [commentWidth]
  · rintro tail rfl rfl
    exact h (startsMark_cons_cons.2 (.inl ⟨rfl, rfl⟩))
  · rintro tail rfl rfl
    exact h (startsMark_cons_cons.2 (.inr ⟨rfl, rfl⟩))

theorem Inside.commentWidth {inside : Bytes} (h : Inside inside) {depth : Nat} (hd : 1 ≤ depth)
    (tail : Bytes) : commentWidth depth (inside ++ (ascii "*/" ++ tail)) =
      (commentWidth depth (ascii "*/" ++ tail)).map (· + inside.length) := by
  induction h generalizing depth tail with
  | nil => simp
  | @byte b inside hb _ ih =>
    have hb' : ¬StartsMark (b :: (inside ++ (ascii "*/" ++ tail))) := by
      rwa [← List.append_assoc, startsMark_append (by simp [closing_eq])]
    rw [List.cons_append, commentWidth_byte hb', ih hd, Option.map_map]
    rfl
  | @nested inner inside _ _ ihn ihi =>
    have hopen : ascii "/*" ++ (inner ++ (ascii "*/" ++ inside)) ++ (ascii "*/" ++ tail) =
        47 :: 42 :: (inner ++ (ascii "*/" ++ (inside ++ (ascii "*/" ++ tail)))) := by
      simp [opening_eq]
    have hclose : Token.commentWidth (depth + 1) (ascii "*/" ++ (inside ++ (ascii "*/" ++ tail))) =
        (Token.commentWidth depth (inside ++ (ascii "*/" ++ tail))).map (· + 2) := by
      rw [closing_eq, List.cons_append, List.cons_append, List.nil_append, commentWidth_closing,
        if_neg (by omega), Nat.add_sub_cancel]
    rw [hopen, commentWidth_opening, ihn (by omega), hclose, ihi hd, Option.map_map, Option.map_map,
      Option.map_map]
    congr 1
    funext n
    simp only [Function.comp_apply, List.length_append, opening_eq, closing_eq, List.length_cons,
      List.length_nil]
    omega

/-- A text that closes a number of open comments, each after what stands inside of it. -/
inductive Closes : Nat → Bytes → Prop
  | last {inside : Bytes} (hi : Inside inside) : Closes 1 (inside ++ ascii "*/")
  | more {depth : Nat} {inside rest : Bytes} (hi : Inside inside) (hr : Closes depth rest) :
    Closes (depth + 1) (inside ++ (ascii "*/" ++ rest))

namespace Closes

variable {depth : Nat} {text : Bytes}

theorem ne_nil (h : Closes depth text) : text ≠ [] := by
  cases h <;> simp [closing_eq]

theorem byte {b : UInt8} (hb : ¬StartsMark (b :: text)) (h : Closes depth text) :
    Closes depth (b :: text) := by
  cases h with
  | last hi => exact .last (.byte hb hi)
  | more hi hr =>
    rw [← List.append_assoc, startsMark_append (by simp [closing_eq])] at hb
    exact .more (.byte hb hi) hr

theorem nested (h : Closes (depth + 1) text) (hd : 1 ≤ depth) :
    Closes depth (ascii "/*" ++ text) := by
  cases h with
  | last => omega
  | @more _ inner rest hi hr =>
    cases hr with
    | @last inside hi' =>
      have h := Closes.last (.nested hi hi')
      simpa only [List.append_assoc] using h
    | @more _ inside rest' hi' hr' =>
      have h := Closes.more (.nested hi hi') hr'
      simpa only [List.append_assoc] using h

end Closes

theorem closes_of_commentWidth {depth width : Nat} {text : Bytes} (hd : 1 ≤ depth)
    (h : commentWidth depth text = some width) :
    width ≤ text.length ∧ Closes depth (text.take width) := by
  fun_induction commentWidth depth text generalizing width with
  | case1 depth rest ih =>
    obtain ⟨w, hw, rfl⟩ := Option.map_eq_some_iff.1 h
    obtain ⟨hle, hc⟩ := ih (by omega) hw
    exact ⟨by simpa using hle, hc.nested hd⟩
  | case2 depth rest hle =>
    cases h
    obtain rfl : depth = 1 := by omega
    exact ⟨by simp, .last .nil⟩
  | case3 depth rest hgt ih =>
    obtain ⟨w, hw, rfl⟩ := Option.map_eq_some_iff.1 h
    obtain ⟨hle, hc⟩ := ih (by omega) hw
    have hm := Closes.more .nil hc
    rw [Nat.sub_add_cancel hd] at hm
    exact ⟨by simpa using hle, hm⟩
  | case4 depth b rest hopen hclose ih =>
    obtain ⟨w, hw, rfl⟩ := Option.map_eq_some_iff.1 h
    obtain ⟨hle, hc⟩ := ih hd hw
    refine ⟨by simpa using hle, hc.byte ?_⟩
    rw [← startsMark_append hc.ne_nil (rest.drop w), List.take_append_drop]
    rintro (⟨tail, he⟩ | ⟨tail, he⟩)
    · cases he
      exact hopen _ rfl rfl
    · cases he
      exact hclose _ rfl rfl
  | case5 => cases h

theorem isBlockComment_of_commentWidth {rest : Bytes} {width : Nat}
    (h : commentWidth 1 rest = some width) :
    width ≤ rest.length ∧ IsBlockComment (ascii "/*" ++ rest.take width) := by
  obtain ⟨hle, hc⟩ := closes_of_commentWidth (Nat.le_refl 1) h
  refine ⟨hle, ?_⟩
  generalize rest.take width = text at hc
  cases hc with
  | last hi => exact ⟨_, rfl, hi⟩
  | more hi hr => cases hr

theorem commentWidth_of_inside {inside : Bytes} (h : Inside inside) (tail : Bytes) :
    commentWidth 1 (inside ++ (ascii "*/" ++ tail)) = some (inside.length + 2) := by
  rw [h.commentWidth (Nat.le_refl 1), closing_eq, List.cons_append, List.cons_append,
    commentWidth_closing, if_pos (Nat.le_refl 1), Option.map_some, Nat.add_comm]

theorem unclosed_iff {rest : Bytes} :
    Unclosed (ascii "/*" ++ rest) ↔ commentWidth 1 rest = none := by
  constructor
  · intro h
    cases hw : commentWidth 1 rest with
    | none => rfl
    | some width =>
      have hc := (isBlockComment_of_commentWidth hw).2
      refine absurd ?_ (h.2 _ hc)
      exact (List.prefix_append_right_inj _).2 (List.take_prefix _ _)
  · rintro h
    refine ⟨List.prefix_append _ _, ?_⟩
    rintro _ ⟨inside, rfl, hi⟩ ⟨tail, he⟩
    rw [List.append_assoc, List.append_assoc, List.append_cancel_left_eq] at he
    rw [← he, commentWidth_of_inside hi] at h
    cases h

end PZero.Token
