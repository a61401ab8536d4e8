import Lexis.Proofs.Lexer.Reach
import Lexis.Proofs.Scan.Layout
set_option autoImplicit false

/-!
Which tokens a lexer can hand out. Main statement: they are the well formed ones, and the text of
such a token alone decides its kind, in agreement with the fixed texts of kinds and with the
keywords.
-/
namespace Lexis

theorem Spelling.kind_unique {k l : Kind} {w : List UInt8} (h : Spelling k w) (h' : Spelling l w) :
    k = l := by
  obtain ⟨b, tail, rfl⟩ := List.exists_cons_of_ne_nil h.ne_nil
  have first {kind : Kind} (spelling : Spelling kind (b :: tail)) :
      Lexeme.first b tail = ⟨kind, b :: tail, []⟩ :=
    Lexeme.IsMunch.first_eq ⟨spelling, by simp⟩ (List.append_nil _)
  exact congrArg Lexeme.kind ((first h).symm.trans (first h'))

namespace Kind

variable {w : String} {k l : Kind}

theorem text?_inj (h : k.text? = some w) (h' : l.text? = some w) : k = l :=
  (spelling_of_text h).kind_unique (spelling_of_text h')

theorem ofKeyword?_eq_some_iff :
    ofKeyword? w = some k ↔ k.isKeyword = true ∧ k.text? = some w := by
  constructor
  · intro found
    have text := List.find?_some found
    exact ⟨(List.mem_filter.1 (List.mem_of_find?_eq_some found)).2, by simpa using text⟩
  · rintro ⟨keyword, text⟩
    cases found : ofKeyword? w with
    | none =>
      have other := List.find?_eq_none.1 found k (List.mem_filter.2 ⟨k.mem_all, keyword⟩)
      simp [text] at other
    | some l =>
      have same : l.text? = some w := by simpa using List.find?_some found
      rw [text?_inj same text]

theorem ofKeyword_eq_ok_iff :
    ofKeyword w = .ok k ↔ k.isKeyword = true ∧ k.text? = some w := by
  rw [← ofKeyword?_eq_some_iff, ofKeyword]
  cases ofKeyword? w <;> simp

theorem ofWord_eq_iff : ofWord w = k ↔
    ofKeyword w = .ok k ∨ k = .identifier ∧ ∀ l, ofKeyword w ≠ .ok l := by
  rw [ofWord, ofKeyword]
  cases ofKeyword? w <;> simp [eq_comm]

end Kind

namespace Token

theorem text?_of_symbol : ∀ x ∈ symbols, x.2.text? = some (String.ofList [x.1]) := by decide

theorem wellFormed_of_spelling {kind : Kind} {w : List UInt8} (h : Spelling kind w) :
    WellFormed ⟨kind, Latin1.decode w⟩ := by
  cases h with
  | word nonempty letters =>
    cases found : Kind.ofKeyword? (Latin1.decode w) with
    | none =>
      have other (k : Kind) (keyword : k.isKeyword = true) :
          k.text? ≠ some (Latin1.decode w) := fun text =>
        nomatch found.symm.trans (Kind.ofKeyword?_eq_some_iff.2 ⟨keyword, text⟩)
      rw [Kind.ofWord, found]
      exact .identifier nonempty letters other
    | some k =>
      rw [Kind.ofWord, found]
      exact .fixed (Kind.ofKeyword?_eq_some_iff.1 found).2
  | integer nonempty digits => exact .integer nonempty digits
  | symbol h => exact .fixed (text?_of_symbol _ h)
  | assign => exact .fixed rfl
  | equal => exact .fixed rfl
  | bang => exact .fixed rfl
  | notEqual => exact .fixed rfl
  | illegal stray => exact .illegal stray

namespace WellFormed

variable {t u : Token}

theorem literal_eq (h : t.WellFormed) {w : String} (text : t.kind.text? = some w) :
    t.literal = w := by
  cases h with
  | fixed same => exact Option.some.inj (same.symm.trans text)
  | identifier _ _ _ => cases text
  | integer _ _ => cases text
  | illegal _ => cases text

theorem kind_eq (h : t.WellFormed) (h' : u.WellFormed) (same : t.literal = u.literal) :
    t.kind = u.kind := by
  have spelling := h.spelling
  rw [same] at spelling
  exact spelling.kind_unique h'.spelling

end WellFormed

def IsScanned (t : Token) : Prop :=
  ∃ (bytes : List UInt8) (log : List SpannedToken) (l : Lexer),
    Scans Lexer.nextSpanned (.ofBytes bytes) log l ∧ t ∈ beforeEnd log

end Token

/-- Whatever a lexer answers in front of the end is well formed. -/
theorem Lexer.wellFormed_nextSpanned (l : Lexer)
    (before_end : l.nextSpanned.1.token.isEof = false) : l.nextSpanned.1.token.WellFormed := by
  cases read : Scan.next? l.position l.rest with
  | none =>
    simp only [nextSpanned, read] at before_end
    cases before_end
  | some next =>
    obtain ⟨t, rest⟩ := next
    obtain ⟨w, spelling, literal, _⟩ := exists_spelling_of_mem_tokens (mem_tokens_of_some read)
    have well_formed := Token.wellFormed_of_spelling spelling
    rw [← literal] at well_formed
    simpa only [nextSpanned, read] using well_formed

theorem Scans.wellFormed {l l' : Lexer} {log : List SpannedToken}
    (scans : Scans Lexer.nextSpanned l log l') : ∀ t ∈ beforeEnd log, t.WellFormed := by
  induction scans with
  | none => simp [beforeEnd]
  | @more l _ ts _ ih =>
    cases at_end : l.nextSpanned.1.token.isEof with
    | true => rwa [beforeEnd_cons_of_isEof ts at_end]
    | false =>
      rw [beforeEnd_cons_of_not_isEof ts at_end]
      exact List.forall_mem_cons.2 ⟨l.wellFormed_nextSpanned at_end, ih⟩

namespace Token

/-- A lexer hands a well formed token out if its literal is the whole input. -/
theorem WellFormed.isScanned {t : Token} (h : t.WellFormed) : t.IsScanned := by
  have munch : (Lexeme.mk t.kind (Latin1.encode t.literal) []).IsMunch := ⟨h.spelling, by simp⟩
  have read := next?_munch 0 (List.forall_mem_nil _) munch
  have answer : (Lexer.ofBytes (Latin1.encode t.literal)).nextSpanned.1.token = t := by
    rw [List.nil_append, List.append_nil] at read
    rw [Lexer.nextSpanned, Lexer.ofBytes, read]
    simp only [Lexeme.token, h.decode_encode]
  have before_end :
      (Lexer.ofBytes (Latin1.encode t.literal)).nextSpanned.1.token.isEof = false := by
    rw [answer]
    simpa [isEof] using h.spelling.kind_ne_eof
  refine ⟨Latin1.encode t.literal, _, _, .one, ?_⟩
  rw [beforeEnd_cons_of_not_isEof [] before_end, answer]
  exact List.mem_cons_self

theorem isScanned_iff {t : Token} : t.IsScanned ↔ t.WellFormed :=
  ⟨fun ⟨_, _, _, scans, member⟩ => scans.wellFormed t member, WellFormed.isScanned⟩

end Token

/-- The tokens of a lexer have the kinds of their literals, by the fixed texts and the keywords. -/
theorem kinds_agree :
    (∀ t : Token, t.IsScanned → (∀ w, t.kind.text? = some w → t.literal = w) ∧
      ∀ k : Kind, k.text? = some t.literal → t.kind = k) ∧
    (∀ (k : Kind) (w : String), k.text? = some w → Token.IsScanned ⟨k, w⟩) ∧
    (∀ t u : Token, t.IsScanned → u.IsScanned → t.literal = u.literal → t.kind = u.kind) ∧
    (∀ (w : String) (k : Kind),
      Kind.ofKeyword w = .ok k ↔ k.isKeyword = true ∧ k.text? = some w) ∧
    ∀ (w : String) (k : Kind), Kind.ofWord w = k ↔
      Kind.ofKeyword w = .ok k ∨ k = .identifier ∧ ∀ l, Kind.ofKeyword w ≠ .ok l := by
  refine ⟨fun t scanned => ?_, fun k w text => ?_, fun t u scanned scanned' same => ?_,
    fun w k => Kind.ofKeyword_eq_ok_iff, fun w k => Kind.ofWord_eq_iff⟩
  · have well_formed := Token.isScanned_iff.1 scanned
    exact ⟨fun w text => well_formed.literal_eq text, fun k text =>
      well_formed.kind_eq (u := ⟨k, t.literal⟩) (.fixed text) rfl⟩
  · exact Token.isScanned_iff.2 (.fixed text)
  · exact (Token.isScanned_iff.1 scanned).kind_eq (Token.isScanned_iff.1 scanned') same

end Lexis
