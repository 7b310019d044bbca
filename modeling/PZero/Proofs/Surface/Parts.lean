import PZero.Proofs.Surface.Lockstep

namespace PZero.Surface

open Reading

/-- A part of a program, with what its reader is told beforehand. -/
inductive Part : Type → Type
  | operand : Part Expr
  | signed (op : UnaryOp) (sign : Token) : Part Expr
  | binary (level : Nat) : Part Expr
  | binaryRest (level : Nat) (left : Expr) : Part Expr
  | expr : Part Expr
  | args : Part (List Expr)
  | argList : Part (List Expr)
  | local_ (isConst : Bool) : Part Stmt
  | stmt : Part Stmt
  | block : Part (List Stmt)
  | body : Part (List Stmt)
  | type : Part TypeRef
  | params : Part (List Param)
  | number : Part (Option Expr)
  | initializer : Part (Option Expr)
  | var (isConst : Bool) : Part (Option Decl)
  | result (declared : Option TypeRef) : Part (Option Result)
  | fun_ : Part (Option Decl)
  | skipped : Part Unit
  | decl : Part (Option Decl)
  | program : Part Program

namespace Part

variable {α : Type}

def read (part : Part α) (bound : Nat) : Reading α :=
  match part with
  | .operand => readOperand bound
  | .signed op sign => readSigned bound op sign
  | .binary level => readBinary bound level
  | .binaryRest level left => readBinaryRest bound level left
  | .expr => readExpr bound
  | .args => readArgs bound
  | .argList => readArgList bound
  | .local_ isConst => readLocal bound isConst
  | .stmt => readStmt bound
  | .block => readBlock bound
  | .body => readBody bound
  | .type => readType
  | .params => readParams bound
  | .number => readNumber
  | .initializer => readInitializer
  | .var isConst => readVar isConst
  | .result declared => readResult bound declared
  | .fun_ => readFun bound
  | .skipped => skipToFun bound
  | .decl => readDecl bound
  | .program => readProgram bound

/-- These are only read where their first token stands, which is not the end of the file. -/
def Starts (part : Part α) (r : Reader) : Prop :=
  match part with
  | .signed .. | .local_ _ | .var _ | .fun_ | .decl => r.current.kind ≠ .endOfFile
  | _ => True

/-- How far reading comes. Where something has to stand a token is taken or an error told, and a
loop that finds nothing to read may leave the reader as it is. -/
def Leaves (part : Part α) (r r' : Reader) : Prop :=
  match part with
  | .signed .. | .local_ _ | .var _ | .fun_ => Advances r r'
  | .decl => Advances r.restarted r'
  | .binaryRest .. | .block | .body | .result _ | .skipped => Within r r'
  | .program => Onward r r' ∧ r'.ahead = []
  | _ => Moves r r'

variable {bound : Nat} {r r' : Reader}

theorem Leaves.onward {part : Part α} (h : part.Leaves r r') : Onward r r' := by
  cases part with
  | decl => exact ⟨h.taken, h.errors⟩
  | program => exact h.1
  | _ => exact h.toOnward

/-- The depth that is enough for the tokens from the current one on. -/
def depth (r : Reader) : Nat := 8 * (r.ahead.length + 1)

theorem runs (part : Part α) {b b' : Nat} (hr : r.Closed) (hs : part.Starts r) (hb : depth r ≤ b)
    (hb' : depth r ≤ b') :
    part.read b r = part.read b' r ∧ part.Leaves r (part.read b r).2 := by
  obtain ⟨t, rfl⟩ : ∃ t : Twins True, t.one = r := ⟨.refl r hr, rfl⟩
  have hbound : 8 * (t.left + 1) ≤ min b b' := le_min hb hb'
  cases part with
  | operand => exact runs_same (readOperand_runs b b' t (by omega))
  | signed op sign =>
    obtain ⟨he, hl⟩ := runs_same (readSigned_runs b b' op sign sign t (fun _ ↦ rfl) hs (by omega))
    exact ⟨he, hl.toAdvances⟩
  | binary level => exact runs_same (readBinary_runs b b' level t (by omega))
  | binaryRest level left =>
    exact runs_same (readBinaryRest_runs b b' level left left t .rfl (by omega))
  | expr => exact runs_same (readExpr_runs b b' t (by omega))
  | args => exact runs_same (readArgs_runs b b' t (by omega))
  | argList => exact runs_same (readArgList_runs b b' t (by omega))
  | local_ isConst =>
    obtain ⟨he, hl⟩ := runs_same (readLocal_runs b b' isConst hs (by omega))
    exact ⟨he, hl.toAdvances⟩
  | stmt => exact runs_same (readStmt_runs b b' t (by omega))
  | block => exact runs_same (readBlock_runs b b' t (by omega))
  | body => exact runs_same (readBody_runs b b' t (by omega))
  | type => exact runs_same (readType_runs)
  | params => exact runs_same (readParams_runs b b' t (by omega))
  | number => exact runs_same (readNumber_runs)
  | initializer => exact runs_same (readInitializer_runs)
  | var isConst =>
    obtain ⟨he, hl⟩ := runs_same (readVar_runs isConst hs)
    exact ⟨he, hl.toAdvances⟩
  | result declared => exact runs_same (readResult_runs b b' .rfl (by omega))
  | fun_ =>
    obtain ⟨he, hl⟩ := runs_same (readFun_runs b b' hs (by omega))
    exact ⟨he, hl.toAdvances⟩
  | skipped =>
    obtain ⟨he, hl⟩ := runs_same (skipToFun_runs b b' t (by omega))
    exact ⟨he, hl.1⟩
  | decl =>
    obtain ⟨he, hl⟩ := runs_same (readDecl_runs b b' hs (by omega))
    exact ⟨he, hl.toAdvances⟩
  | program => exact runs_same (readProgram_runs b b' t (by omega))

theorem read_eq (part : Part α) (hr : r.Closed) (hs : part.Starts r) (hb : depth r ≤ bound) :
    part.read bound r = part.read (depth r) r := (part.runs hr hs hb le_rfl).1

theorem leaves (part : Part α) (hr : r.Closed) (hs : part.Starts r) (hb : depth r ≤ bound) :
    part.Leaves r (part.read bound r).2 := (part.runs hr hs hb le_rfl).2

end Part

theorem bind_congr {α β : Type} {m : Reading α} {f : α → Reading β} {r r' : Reader}
    (h : m r = m r') : (m >>= f) r = (m >>= f) r' :=
  congrArg (fun x : α × Reader ↦ f x.1 x.2) h

def Reader.after (r : Reader) (previous : Token) : Reader := { r with previous := previous }

theorem advance_after {r : Reader} (hr : r.Closed) (hk : r.current.kind ≠ .endOfFile)
    (previous : Token) : advance (r.after previous) = advance r := by
  obtain ⟨next, ahead, ha⟩ := hr.ahead hk
  rw [advance_eq, advance_eq, Reader.after, ha]

theorem report_advance_after {β : Type} {f : Unit → Reading β} {r : Reader} (hr : r.Closed)
    (hk : r.current.kind ≠ .endOfFile) (problem : ParseProblem) (previous : Token) :
    (report problem >>= fun _ ↦ discard advance >>= f) (r.after previous) =
      (report problem >>= fun _ ↦ discard advance >>= f) r := by
  have hreport : (report problem (r.after previous)).2 = (report problem r).2.after previous := by
    rw [report_snd, report_snd]
    cases r with
    | mk _ _ _ failed _ => cases failed <;> rfl
  have hsame : (report problem r).2.current = r.current ∧ (report problem r).2.ahead = r.ahead := by
    rw [report_snd]
    split <;> exact ⟨rfl, rfl⟩
  have hr' : (report problem r).2.Closed := by rwa [Reader.Closed, hsame.1, hsame.2]
  change (discard advance >>= f) (report problem (r.after previous)).2 =
    (discard advance >>= f) (report problem r).2
  rw [hreport]
  exact bind_congr (congrArg (fun x : Token × Reader ↦ ((), x.2))
    (advance_after hr' (hsame.1 ▸ hk) previous))

theorem readDecl_after {r : Reader} (hr : r.Closed) (hk : r.current.kind ≠ .endOfFile)
    (previous : Token) (bound : Nat) : readDecl bound (r.after previous) = readDecl bound r := by
  have hrestart : ∀ (f : Unit → Reading (Option Decl)) (r : Reader),
      (modify (fun r ↦ { r with failed := false }) >>= f) r = f () r.restarted := fun _ _ ↦ rfl
  have hpeek : ∀ (f : Token → Reading (Option Decl)) (r : Reader),
      (peek >>= f) r = f r.current r := fun _ _ ↦ rfl
  have hr₀ : r.restarted.Closed := hr
  unfold readDecl
  rw [hrestart, hrestart, hpeek, hpeek, show (r.after previous).restarted =
    r.restarted.after previous from rfl, show (r.restarted.after previous).current =
    r.restarted.current from rfl]
  dsimp only
  cases hc : r.restarted.current.kind with
  | constKw | letKw | funKw => exact bind_congr (bind_congr (advance_after hr₀ hk previous))
  | _ => exact report_advance_after hr₀ hk _ previous

theorem readProgram_after {r : Reader} (hr : r.Closed) (previous : Token) (bound : Nat) :
    (readProgram bound (r.after previous)).1 = (readProgram bound r).1 ∧
      (readProgram bound (r.after previous)).2.errors = (readProgram bound r).2.errors := by
  cases bound with
  | zero => exact ⟨rfl, rfl⟩
  | succ bound =>
    have hpeek : ∀ r : Reader, readProgram (bound + 1) r = (if r.current.kind = .endOfFile then
        return [] else (do
          let decl ← readDecl bound
          let rest ← readProgram bound
          return decl.toList ++ rest) : Reading Program) r := fun r ↦ by
      rw [readProgram]
      rfl
    rw [hpeek, hpeek]
    by_cases hk : r.current.kind = .endOfFile
    · rw [if_pos hk, if_pos (show (r.after previous).current.kind = _ from hk)]
      exact ⟨rfl, rfl⟩
    · rw [if_neg hk, if_neg (show (r.after previous).current.kind ≠ _ from hk),
        bind_congr (readDecl_after hr hk previous bound)]
      exact ⟨rfl, rfl⟩

theorem scan_endsOnce (text : Bytes) : EndsOnce (Token.scan text) :=
  .of_closed (Token.scan_closed text)

/-- A reader at some place of a file. -/
def Reader.In (f : File) (r : Reader) : Prop :=
  ∃ taken, Token.scan f.input = taken ++ r.current :: r.ahead

theorem Reader.In.closed {f : File} {r : Reader} (h : r.In f) : r.Closed := by
  obtain ⟨taken, he⟩ := h
  have hs := scan_endsOnce f.input
  rw [he] at hs
  exact hs.of_append

theorem Onward.in {f : File} {r r' : Reader} (h : Onward r r') (hr : r.In f) : r'.In f := by
  obtain ⟨taken, he⟩ := hr
  obtain ⟨more, hm, -⟩ := h.taken
  exact ⟨taken ++ more, by rw [he, hm, List.append_assoc]⟩

theorem scan_cons (f : File) : ∃ first rest, Token.scan f.input = first :: rest := by
  obtain ⟨before, last, he, -⟩ := scan_endsOnce f.input
  cases before with
  | nil => exact ⟨_, _, he⟩
  | cons first before => exact ⟨_, _, he⟩

variable {f : File} {first : Token} {rest : List Token}

theorem In.start (hs : Token.scan f.input = first :: rest) :
    Reader.In f ⟨first, first, rest, false, []⟩ := ⟨[], hs⟩

theorem depth_first (hs : Token.scan f.input = first :: rest) :
    Part.depth ⟨first, first, rest, false, []⟩ = 8 * (Token.scan f.input).length := by
  rw [hs, Part.depth, List.length_cons]

theorem parseFile_eq (hs : Token.scan f.input = first :: rest) {bound : Nat}
    (hb : 8 * (Token.scan f.input).length ≤ bound) :
    parseFile f = ((readProgram bound ⟨first, first, rest, false, []⟩).1,
      (readProgram bound ⟨first, first, rest, false, []⟩).2.errors) := by
  have hr := (In.start hs).closed
  rw [← depth_first hs] at hb
  have hread := Part.read_eq .program hr trivial hb
  have hchosen := Part.read_eq .program hr trivial
    (show _ ≤ 8 * (first :: rest).length + 16 by rw [depth_first hs, hs]; omega)
  rw [parseFile, hs, show readProgram bound _ = _ from hread.trans hchosen.symm]
  rfl

/-- The bound that is chosen for a file is enough, and no token before the first one is looked
at. -/
theorem readProgram_file (hs : Token.scan f.input = first :: rest) (previous : Token) {bound : Nat}
    (hb : 8 * (Token.scan f.input).length ≤ bound) :
    (readProgram bound ⟨previous, first, rest, false, []⟩).1 = (parseFile f).1 ∧
      (readProgram bound ⟨previous, first, rest, false, []⟩).2.errors = (parseFile f).2 := by
  rw [parseFile_eq hs hb]
  exact readProgram_after (In.start hs).closed previous bound

theorem parseFile_bounded (f : File) : ∀ e ∈ (parseFile f).2, e.problem ≠ .tooDeep := by
  obtain ⟨first, rest, hs⟩ := scan_cons f
  have hl := Part.leaves .program (In.start hs).closed trivial (depth_first hs).le
  obtain ⟨more, hm, hall⟩ := hl.onward.errors
  rw [parseFile_eq hs le_rfl]
  change ∀ e ∈ (Part.program.read _ _).2.errors, _
  rw [hm]
  exact hall

end PZero.Surface
