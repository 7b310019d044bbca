import PZero.Proofs.Refinement.Outcome
import PZero.Proofs.Surface.Accepts
import PZero.Proofs.Token.Literal
import PZero.Proofs.Token.Tiling
import PZero.Proofs.Typing.Layout

namespace PZero.Compiled

open Machine StringLiteral
open Lowering (lower)
open Token (scan scanAt scanFrom fixed IsString Bare)

theorem scanAt_quote (s rest : Bytes) (offset : Nat) :
    scanAt offset (quote s ++ rest) =
      ⟨.string, quote s, offset, (offset + (quote s).length : Nat)⟩ ::
        scanAt (offset + (quote s).length) rest :=
  Token.scanAt_of_token rfl (Token.front_string (isString_quote s) rest) offset

theorem isString_of_mem_scan {text : Bytes} {t : Token} (ht : t ∈ scan text)
    (hk : t.kind = .string) : IsString t.lexeme := by
  obtain ⟨before, last, he, hl, hfine⟩ := Token.scan_closed text
  rw [he] at ht
  rcases List.mem_append.1 ht with ht | ht
  · have hc := (hfine t ht).2
    rwa [hk] at hc
  · obtain rfl := List.mem_singleton.1 ht
    rw [Token.word, hk] at hl
    cases hl

theorem decode_of_mem_scan {text : Bytes} {t : Token} (ht : t ∈ scan text)
    (hk : t.kind = .string) :
    (∀ e, decode t.lexeme = .error e → ∃ b, e = .unknownEscape b) ∧
      ((∃ e, decode t.lexeme = .error e) ↔ Bare BadEscape t.lexeme) := by
  rcases decode_string (isString_of_mem_scan ht hk) with ⟨⟨s, hs⟩, hn⟩ | ⟨⟨b, hb⟩, hbare⟩
  · simp [hs, hn]
  · simp [hb, hbare, eq_comm]

def printing (s : Bytes) : Bytes :=
  ascii "fun main() \x7b print(" ++ (quote s ++ ascii "); \x7d")

def printingDecl (s : Bytes) : Surface.Decl :=
  .fun_ ⟨ascii "main", default⟩ []
    [.call ⟨ascii "print", default⟩ [.string (quote s) default] default] none default

theorem printingDecl_grammatical (s : Bytes) : Surface.Program.Grammatical [printingDecl s] := by
  have hident : ∀ name ∈ [ascii "main", ascii "print"], Token.IsIdent name := by
    intro name hname
    simp only [List.mem_cons, List.not_mem_nil, or_false] at hname
    rcases hname with rfl | rfl
    · exact ⟨⟨⟨109, _, rfl, by decide⟩, List.all_eq_true.1 (by decide)⟩, by decide⟩
    · exact ⟨⟨⟨112, _, rfl, by decide⟩, List.all_eq_true.1 (by decide)⟩, by decide⟩
  refine List.forall_mem_singleton.2 ⟨hident _ (by simp), by simp, ⟨⟨?_, ?_⟩, trivial⟩, by simp⟩
  · exact hident _ (by simp)
  · exact ⟨isString_quote s, trivial⟩

theorem scan_printing (s : Bytes) : (scan (printing s)).map Token.word =
    Surface.Program.words [printingDecl s] ++ [(.endOfFile, [])] := by
  have hbefore : ∀ tail : Bytes,
      (scanFrom (tail.length + 19) 0 (ascii "fun main() \x7b print(" ++ tail)).map Token.word =
        fixed .funKw :: (.ident, ascii "main") :: fixed .openParen :: fixed .closeParen ::
          fixed .openBrace :: (.ident, ascii "print") :: fixed .openParen ::
          (scanFrom (tail.length + 9) 19 tail).map Token.word := fun _ ↦ rfl
  have hafter : ∀ offset, (scanAt offset (ascii "); \x7d")).map Token.word =
      [fixed .closeParen, fixed .semicolon, fixed .closeBrace, (.endOfFile, [])] := fun _ ↦ rfl
  have hlength : ∀ tail : Bytes,
      (ascii "fun main() \x7b print(" ++ tail).length = tail.length + 19 := fun _ ↦ rfl
  rw [scan, printing, hlength, hbefore,
    Token.scanFrom_eq (Nat.le_add_right _ 9) (Nat.le_refl _), ← scanAt, scanAt_quote,
    List.map_cons, hafter]
  rfl

def printed (s : Bytes) : Typed.Program :=
  ⟨[], .call (ascii "print") [.literal (.string s)] true⟩

theorem checkProgram_printing (s : Bytes) :
    Typing.checkProgram [printingDecl s] = (printed s, []) := by
  have harg : Typing.checkArgs [[], []] [.string (quote s) default] =
      ([.literal (.string s)], []) := by
    simp only [Typing.checkArgs, Typing.checkArg, decode_quote, List.append_nil]
  have hcall : Typing.checkCallStmt [[], []] ⟨ascii "print", default⟩
      [.string (quote s) default] = (.call (ascii "print") [.literal (.string s)] true, []) := by
    rw [Typing.checkCallStmt, harg]
    rfl
  have hsplit : Typing.splitMain [printingDecl s] = (some (printingDecl s), []) := rfl
  have hnames : Typing.declareAll [[]] false [printingDecl s] = ([[]], []) := rfl
  have hmain : Typing.checkMain [[]] (some (printingDecl s)) = ((printed s).main, []) := by
    have hstmts : Typing.checkStmts [[], []]
        [.call ⟨ascii "print", default⟩ [.string (quote s) default] default] =
          ([(printed s).main], [[], []], []) := by
      simp only [Typing.checkStmts, Typing.checkStmt, hcall, List.append_nil]
      rfl
    rw [printingDecl, Typing.checkMain, Typing.Scopes.enter, hstmts]
    rfl
  rw [Typing.checkProgram, hsplit, hnames]
  simp only [hmain]
  rfl

theorem checkFile_printing (name s : Bytes) :
    Typing.checkFile ⟨name, printing s⟩ = .ok (printed s) := by
  obtain ⟨program, hparse, hbare⟩ :=
    Surface.parse_of_words (printingDecl_grammatical s) (scan_printing s)
  obtain ⟨htyped, htold⟩ := Typing.checkProgram_of_bare hbare
  rw [checkProgram_printing] at htyped htold
  have hnone : (Typing.checkProgram program).2 = [] := List.map_eq_nil_iff.1 htold
  rw [Typing.checkFile, Surface.parseFile, hparse]
  simp only [hnone, if_true, htyped]

theorem printing_runs (name id s : Bytes) : ∃ p M n,
    Typing.checkFile ⟨name, printing s⟩ = .ok p ∧ lower id p = .ok M ∧
      ∀ fuel, n ≤ fuel → runOnce fuel M = some (s.takeWhile (· != 0), none) := by
  have hc := checkFile_printing name s
  obtain ⟨M, hl⟩ : ∃ M, lower id (printed s) = .ok M := ⟨_, rfl⟩
  obtain ⟨pool, hlinked, hloads⟩ :=
    Refinement.load_linked (Typing.checkFile_wellTyped hc) (Typing.checkFile_isName hc) hl
  obtain ⟨memory, hload, hcarries⟩ := hloads ⟨0, 0⟩
  let session : Session := ⟨.ofModule M ⟨0, 0⟩, memory, 0, 0⟩
  have hfollows := @Refinement.main_follows _ _ _ session (hlinked ⟨0, 0⟩ (Int64.le_refl 0))
    (Lowering.lower_whole hl) rfl hcarries 1
  have hrun : Semantics.main (printed s) session.image.maxDepth 1
      ⟨Semantics.initial (printed s), []⟩ = .ok () ⟨[], s.takeWhile (· != 0)⟩ := rfl
  rw [hrun] at hfollows
  obtain ⟨n, after, hmain, -⟩ := hfollows
  refine ⟨_, M, n, hc, hl, fun fuel hle ↦ ?_⟩
  simp only [runOnce, hload]
  rw [hmain fuel hle]
  rfl

/-- Every text can be quoted, and its literal is one token that stands for the text and prints it up
to its first zero byte; of the other literals, those with an escape that stands for nothing are
rejected, for that reason only. -/
theorem string_literals_survive :
    (∀ (s rest : Bytes) (offset : Nat),
      scanAt offset (quote s ++ rest) =
          ⟨.string, quote s, offset, (offset + (quote s).length : Nat)⟩ ::
            scanAt (offset + (quote s).length) rest ∧
        decode (quote s) = .ok s) ∧
    (∀ text, ∀ t ∈ scan text, t.kind = .string →
      (∀ e, decode t.lexeme = .error e → ∃ b, e = .unknownEscape b) ∧
        ((∃ e, decode t.lexeme = .error e) ↔ Bare BadEscape t.lexeme)) ∧
    ∀ name id s : Bytes, ∃ p M n,
      Typing.checkFile ⟨name, printing s⟩ = .ok p ∧ lower id p = .ok M ∧
        ∀ fuel, n ≤ fuel → runOnce fuel M = some (s.takeWhile (· != 0), none) :=
  ⟨fun s rest offset ↦ ⟨scanAt_quote s rest offset, decode_quote s⟩,
    fun _ _ ht hk ↦ decode_of_mem_scan ht hk, printing_runs⟩

theorem literals_sample : Bare BadEscape (ascii "\"a\\q\"") ∧ ∃ p M fuel,
    Typing.checkFile ⟨[], printing [97, 92, 0, 34]⟩ = .ok p ∧ lower [] p = .ok M ∧
      runOnce fuel M = some ([97, 92], none) := by
  obtain ⟨-, hbad, hprints⟩ := string_literals_survive
  obtain ⟨p, M, n, hc, hl, hrun⟩ := hprints [] [] [97, 92, 0, 34]
  refine ⟨?_, p, M, n, hc, hl, hrun n (Nat.le_refl n)⟩
  have hmem : ⟨.string, ascii "\"a\\q\"", 0, 5⟩ ∈ scan (ascii "\"a\\q\"") := by decide
  exact (hbad _ _ hmem rfl).2.1 ⟨.unknownEscape 113, rfl⟩

end PZero.Compiled
