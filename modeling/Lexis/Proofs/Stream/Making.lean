import Lexis.Proofs.Lexer.Reach
import Lexis.Proofs.Stream.Strays
set_option autoImplicit false

/-!
A stream made token by token, where each turn can fail. Main statement: no turn fails, the end token
is reached after one turn for each token, and these are at most one more than the bytes that are not
blank.
-/
namespace Lexis

/-- A range outside the source has no span, and an illegal token without bytes none to report. -/
inductive Fault where
  | noSpan (range : Span)
  | noByte (span : Span)
  deriving DecidableEq, Repr

/-- The lexer, the tokens so far, and the handler that has been told of the illegal ones. -/
structure Making (σ : Type) where
  lexer : Registers
  tokens : List SpannedToken
  handler : σ

namespace Making

variable {σ : Type} [Handler σ Diagnostic]

def start (s : Source) (handler : σ) : Making σ := ⟨.ofBytes s.bytes, [], handler⟩

def report (s : Source) (t : SpannedToken) (handler : σ) : Except Fault σ :=
  if t.token.kind = .illegal then
    match (s.slice t.span)[0]? with
    | none => .error (.noByte t.span)
    | some b => .ok (Handler.receive handler (Diagnostic.illegalCharacter t.span b))
  else .ok handler

def turn (s : Source) (m : Making σ) : Except Fault (Bool × Making σ) :=
  let (t, lexer) := m.lexer.nextSpanned
  match s.span? t.span.start t.span.stop with
  | none => .error (.noSpan t.span)
  | some span =>
    match report s ⟨t.token, span⟩ m.handler with
    | .error e => .error e
    | .ok handler => .ok (t.token.isEof, ⟨lexer, m.tokens ++ [⟨t.token, span⟩], handler⟩)

/-- Turns up to the end token or the first fault, with their number and what comes of them. -/
inductive Makes (s : Source) : Making σ → Nat → Except Fault (List SpannedToken × σ) → Prop where
  | fault {m : Making σ} {e : Fault} : m.turn s = .error e → Makes s m 1 (.error e)
  | last {m m' : Making σ} : m.turn s = .ok (true, m') → Makes s m 1 (.ok (m'.tokens, m'.handler))
  | more {m m' : Making σ} {n : Nat} {r : Except Fault (List SpannedToken × σ)} :
      m.turn s = .ok (false, m') → Makes s m' n r → Makes s m (n + 1) r

variable {s : Source} {m m' : Making σ} {n n' : Nat}
  {r r' : Except Fault (List SpannedToken × σ)}

/-- Turns come to one end only. -/
theorem Makes.unique (h : Makes s m n r) (h' : Makes s m n' r') : n' = n ∧ r' = r := by
  induction h generalizing n' r' with
  | fault here =>
    cases h' with
    | fault other =>
      cases here.symm.trans other
      exact ⟨rfl, rfl⟩
    | last other => cases here.symm.trans other
    | more other _ => cases here.symm.trans other
  | last here =>
    cases h' with
    | fault other => cases here.symm.trans other
    | last other =>
      cases here.symm.trans other
      exact ⟨rfl, rfl⟩
    | more other _ => cases here.symm.trans other
  | more here _ ih =>
    cases h' with
    | fault other => cases here.symm.trans other
    | last other => cases here.symm.trans other
    | more other rest =>
      cases here.symm.trans other
      obtain ⟨rfl, rfl⟩ := ih rest
      exact ⟨rfl, rfl⟩

end Making

/-- The range of a token lies in the source, and only the end token has no bytes. -/
structure SpannedToken.FitsIn (t : SpannedToken) (s : Source) : Prop where
  within : t.span.Within s.bytes.length
  nonempty : t.token.kind ≠ .eof → t.span.start < t.span.stop

namespace SpannedToken.FitsIn

variable {s : Source} {t : SpannedToken}

theorem span? (h : t.FitsIn s) : s.span? t.span.start t.span.stop = some t.span := by
  have within : Span.Within t.span s.content.size := by
    have inside := h.within
    rwa [Source.bytes, Array.length_toList] at inside
  rw [Source.span?, if_pos within]

theorem exists_byte (h : t.FitsIn s) (illegal : t.token.kind = .illegal) :
    ∃ b, (s.slice t.span)[0]? = some b := by
  have nonempty := h.nonempty (by rw [illegal]; decide)
  have inside := h.within.2
  have first : 0 < (s.slice t.span).length := by
    rw [slice_eq_bytesOf, Span.bytesOf, List.length_take, List.length_drop]
    omega
  exact ⟨_, List.getElem?_eq_getElem first⟩

theorem report_eq {σ : Type} [Handler σ Diagnostic] (h : t.FitsIn s) (handler : σ) :
    Making.report s t handler =
      .ok (Handler.receiveAll handler (Diagnostic.ofToken? s t).toList) := by
  rw [Making.report, Diagnostic.ofToken?]
  split
  · next illegal =>
    obtain ⟨b, first⟩ := h.exists_byte illegal
    rw [List.head?_eq_getElem?, first]
    rfl
  · rfl

end SpannedToken.FitsIn

theorem Lexer.StandsIn.fitsIn {l : Lexer} {s : Source} (h : l.StandsIn s.bytes) :
    l.nextSpanned.1.FitsIn s := by
  have le := h.position_le
  have left := h.length_rest
  rw [Lexer.nextSpanned]
  cases read : Scan.next? l.position l.rest with
  | none =>
    refine ⟨⟨Nat.le_refl _, ?_⟩, fun before_end => absurd rfl before_end⟩
    simp only [Scan.endToken, atEnd]
    omega
  | some next =>
    obtain ⟨t, rest⟩ := next
    have bounds := within_of_mem_tokens (mem_tokens_of_some read)
    have to_end : t.span.stop ≤ s.bytes.length := by omega
    exact ⟨⟨Nat.le_of_lt bounds.2.1, to_end⟩, fun _ => bounds.2.1⟩

theorem fitsIn_of_scans {s : Source} {l : Lexer} {log : List SpannedToken} {r : Registers}
    (stands : l.StandsIn s.bytes) (scans : Scans Registers.nextSpanned l.registers log r) :
    ∀ t ∈ log, t.FitsIn s := by
  generalize start : l.registers = x at scans
  induction scans generalizing l with
  | none => simp
  | more _ ih =>
    obtain rfl := start
    rw [stands.nextSpanned_registers]
    exact List.forall_mem_cons.2 ⟨stands.fitsIn,
      ih stands.nextSpanned.1 (congrArg Prod.snd stands.nextSpanned_registers).symm⟩

theorem Handler.receiveAll_filterMap_cons {σ α β : Type} [Handler σ β] (f : α → Option β) (h : σ)
    (x : α) (xs : List α) : Handler.receiveAll h ((x :: xs).filterMap f) =
      Handler.receiveAll (Handler.receiveAll h (f x).toList) (xs.filterMap f) := by
  rw [List.filterMap_cons]
  cases f x <;> rfl

namespace Making

variable {σ : Type} [Handler σ Diagnostic] {s : Source} {l : Lexer}

theorem turn_eq (stands : l.StandsIn s.bytes) (tokens : List SpannedToken) (handler : σ) :
    (Making.mk l.registers tokens handler).turn s =
      .ok (l.nextSpanned.1.token.isEof, ⟨l.nextSpanned.2.registers,
        tokens ++ [l.nextSpanned.1],
        Handler.receiveAll handler (Diagnostic.ofToken? s l.nextSpanned.1).toList⟩) := by
  have fits := stands.fitsIn
  simp only [turn, stands.nextSpanned_registers, fits.span?, fits.report_eq]

/-- A lexer that has tokens left before the end token makes the stream in one turn for each. -/
theorem makes_of_drains {ts : List SpannedToken} {last : SpannedToken} (drains : l.Drains ts last)
    (stands : l.StandsIn s.bytes) (tokens : List SpannedToken) (handler : σ) :
    Makes s ⟨l.registers, tokens, handler⟩ (ts.length + 1)
      (.ok (tokens ++ (ts ++ [last]),
        Handler.receiveAll handler ((ts ++ [last]).filterMap (Diagnostic.ofToken? s)))) := by
  induction drains generalizing tokens handler with
  | finish at_end =>
    have here := turn_eq stands tokens handler
    rw [at_end] at here
    rw [List.nil_append, Handler.receiveAll_filterMap_cons]
    exact .last here
  | token before_end _ ih =>
    have here := turn_eq stands tokens handler
    rw [before_end] at here
    rw [List.cons_append, Handler.receiveAll_filterMap_cons, List.append_cons]
    exact .more here (ih stands.nextSpanned.1 _ _)

theorem registers_ofBytes (s : List UInt8) : (Lexer.ofBytes s).registers = .ofBytes s :=
  (Lexer.standsIn_ofBytes s).registers_eq.trans (Registers.ofBytes_eq s).symm

theorem length_tokenize (s : Source) (handler : σ) :
    (TokenStream.tokenize s handler).1.tokens.length = (Scan.tokens 0 s.bytes).length + 1 :=
  List.length_append

theorem makes_start (s : Source) (handler : σ) :
    Makes s (start s handler) (TokenStream.tokenize s handler).1.tokens.length
      (.ok ((TokenStream.tokenize s handler).1.tokens, (TokenStream.tokenize s handler).2)) := by
  have made := makes_of_drains (Lexer.drains_ofBytes s.bytes) (Lexer.standsIn_ofBytes s.bytes) []
    handler
  rw [registers_ofBytes, List.nil_append] at made
  rw [length_tokenize]
  exact made

end Making

theorem length_tokens_le (position : Nat) (bytes : List UInt8) :
    (Scan.tokens position bytes).length ≤ bytes.countP (¬ IsBlank ·) := by
  induction bytes using munch_induction generalizing position with
  | blank gap blank => simp [tokens_blank position blank]
  | munch gap x blank hx ih =>
    have nonblank : x.bytes.countP (¬ IsBlank ·) = x.bytes.length :=
      List.countP_eq_length.2 fun b hb => by simpa using hx.spelling.not_blank hb
    have taken := List.length_pos_iff.2 hx.spelling.ne_nil
    have rest := ih (position + gap.length + x.bytes.length)
    rw [tokens_munch position blank hx, List.length_cons, List.countP_append, List.countP_append,
      nonblank]
    omega

/-- The stream of a source is made without a fault, in as many turns as it has tokens. -/
theorem tokenize_makes (s : Source) :
    (∀ (σ : Type) [Handler σ Diagnostic] (h : σ),
      (TokenStream.tokenize s h).1.tokens.length ≤ s.bytes.countP (¬ IsBlank ·) + 1 ∧
      ∀ n r, Making.Makes s (.start s h) n r ↔ n = (TokenStream.tokenize s h).1.tokens.length ∧
        r = .ok ((TokenStream.tokenize s h).1.tokens, (TokenStream.tokenize s h).2)) ∧
    ∀ log r, Scans Registers.nextSpanned (.ofBytes s.bytes) log r → ∀ t ∈ log,
      t.span.start ≤ t.span.stop ∧ t.span.stop ≤ s.bytes.length ∧
      s.span? t.span.start t.span.stop = some t.span ∧
      (t.token.kind = .illegal →
        t.span.start < t.span.stop ∧ ∃ b, (s.slice t.span)[0]? = some b) := by
  refine ⟨fun σ _ h => ⟨?_, fun n r => ⟨(Making.makes_start s h).unique, fun same => ?_⟩⟩,
    fun log r scans t ht => ?_⟩
  · rw [Making.length_tokenize]
    exact Nat.succ_le_succ (length_tokens_le 0 s.bytes)
  · obtain ⟨rfl, rfl⟩ := same
    exact Making.makes_start s h
  · rw [← Making.registers_ofBytes] at scans
    have fits := fitsIn_of_scans (Lexer.standsIn_ofBytes s.bytes) scans t ht
    exact ⟨fits.within.1, fits.within.2, fits.span?, fun illegal =>
      ⟨fits.nonempty (by rw [illegal]; decide), fits.exists_byte illegal⟩⟩

end Lexis
