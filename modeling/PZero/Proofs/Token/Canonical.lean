import PZero.Proofs.Surface.Relexing

namespace PZero.Token

variable {text : Bytes}

def words (text : Bytes) : List Word :=
  ((scan text).filter (·.kind ≠ .endOfFile)).map Token.word

def canonical (text : Bytes) : Bytes := joined (words text)

theorem scan_eq (text : Bytes) : ∃ before last, scan text = before ++ [last] ∧
    last.word = (.endOfFile, []) ∧ words text = before.map Token.word ∧
      ∀ t ∈ before, Fine t.kind t.lexeme := by
  obtain ⟨before, last, he, hlast, hfine⟩ := scan_closed text
  have hkind : last.kind = .endOfFile := congrArg Prod.fst hlast
  have hbefore : before.filter (·.kind ≠ .endOfFile) = before := by
    rw [List.filter_eq_self]
    exact fun t ht ↦ decide_eq_true (hfine t ht).1
  refine ⟨before, last, he, hlast, ?_, hfine⟩
  rw [words, he, List.filter_append, hbefore, List.filter_cons_of_neg (by simp [hkind]),
    List.filter_nil, List.append_nil]

theorem map_word_scan (text : Bytes) :
    (scan text).map Token.word = words text ++ [(.endOfFile, [])] := by
  obtain ⟨before, last, he, hlast, hwords, -⟩ := scan_eq text
  rw [he, hwords, List.map_append, List.map_singleton, hlast]

theorem proper_words (h : ∀ t ∈ scan text, t.kind ≠ .bad) : ∀ w ∈ words text, Proper w := by
  obtain ⟨before, last, he, -, hwords, hfine⟩ := scan_eq text
  intro w hw
  rw [hwords] at hw
  obtain ⟨t, ht, rfl⟩ := List.mem_map.1 hw
  have hm : t ∈ scan text := he ▸ List.mem_append_left _ ht
  exact ⟨h t hm, hfine t ht⟩

/-- Scanning the canonical text gives the words of the text again, and then the end of the file. -/
theorem scan_canonical (h : ∀ t ∈ scan text, t.kind ≠ .bad) :
    (scan (canonical text)).map Token.word = words text ++ [(.endOfFile, [])] :=
  scan_joined (proper_words h)

theorem touching_words_scan :
    let text := ascii "f(1.5e-x,\"//\\\n\")/2/*\n*/=="
    (∀ t ∈ scan text, t.kind ≠ .bad) ∧
      canonical text = ascii "f ( 1.5 e - x , \"//\\\n\" ) / 2 ==" ∧
      (scan (canonical text)).map Token.word = words text ++ [(.endOfFile, [])] := by
  have hgood : ∀ t ∈ scan (ascii "f(1.5e-x,\"//\\\n\")/2/*\n*/=="), t.kind ≠ .bad := by
    decide +kernel
  exact ⟨hgood, by decide +kernel, scan_canonical hgood⟩

theorem words_canonical (h : ∀ t ∈ scan text, t.kind ≠ .bad) :
    words (canonical text) = words text :=
  List.append_cancel_right ((map_word_scan _).symm.trans (scan_joined (proper_words h)))

theorem canonical_canonical (h : ∀ t ∈ scan text, t.kind ≠ .bad) :
    canonical (canonical text) = canonical text := by
  rw [canonical, words_canonical h, canonical]

end PZero.Token
