import Lexis.Lexer.Session
import Lexis.Proofs.Lexer.Position
set_option autoImplicit false

/-!
A list of tokens read through a cursor. Main statement: whatever steps drive a lexer, its answers
are those of a cursor in the list of its tokens.
-/
namespace Lexis

def stopAfter (ts : List SpannedToken) (n : Nat) : Nat :=
  ((ts.take n).getLast?.map (·.span.stop)).getD 0

/-- How many tokens of a list have been handed out, and whether the end has been answered. -/
structure Cursor (ts : List SpannedToken) where
  taken : Nat
  ended : Bool
  within : taken ≤ ts.length
  taken_all : ended = true → taken = ts.length

namespace Cursor

variable {ts : List SpannedToken}

def start : Cursor ts := ⟨0, false, Nat.zero_le _, nofun⟩

def atEnd : Cursor ts := ⟨ts.length, true, Nat.le_refl _, fun _ => rfl⟩

def advance (c : Cursor ts) (n : Nat) (h : c.taken + n ≤ ts.length) : Cursor ts :=
  ⟨c.taken + n, c.ended, h, fun ended => by have := c.taken_all ended; omega⟩

def nextSpanned (length : Nat) (c : Cursor ts) : SpannedToken × Cursor ts :=
  if h : c.taken < ts.length then (ts[c.taken], c.advance 1 h) else (Scan.endToken length, atEnd)

def next? (c : Cursor ts) : Option Token × Cursor ts :=
  if h : c.taken < ts.length then (some ts[c.taken].token, c.advance 1 h) else (none, atEnd)

def rest (c : Cursor ts) : List Token := (ts.drop c.taken).map (·.token)

/-- The end is answered only if more tokens are asked for than there are. -/
def take (n : Nat) (c : Cursor ts) : List Token × Cursor ts :=
  (c.rest.take n, if h : c.taken + n ≤ ts.length then c.advance n h else atEnd)

def nth? (n : Nat) (c : Cursor ts) : Option Token × Cursor ts :=
  if h : c.taken + n < ts.length then (some ts[c.taken + n].token, c.advance (n + 1) h)
  else (none, atEnd)

def stop (c : Cursor ts) : Nat := stopAfter ts c.taken

def position (length : Nat) (c : Cursor ts) : Nat := if c.ended then length else c.stop

def isExhausted (length : Nat) (c : Cursor ts) : Bool := c.ended || c.stop == length

def inspect (s : List UInt8) (c : Cursor ts) : String :=
  let position := c.position s.length
  Record.record "Lexer"
    [Record.field "input" (Record.sequence (s.map toString)),
      Record.field "position" (toString position),
      Record.field "read_position" (toString (min (position + 1) s.length)),
      Record.field "character" (Record.optional (s[position]?.map toString))]

end Cursor

/-- A session in which a list of tokens is read instead of a text. -/
structure Playback (ts : List SpannedToken) where
  cursor : Cursor ts
  saved? : Option (Cursor ts)

namespace Playback

variable {ts : List SpannedToken}

def start : Playback ts := ⟨.start, none⟩

def move {α : Type} (p : Playback ts) (answer : α → Session.Answer) (result : α × Cursor ts) :
    Session.Answer × Playback ts := (answer result.1, ⟨result.2, p.saved?⟩)

def step (s : List UInt8) (p : Playback ts) : Session.Step → Session.Answer × Playback ts
  | .nextToken => p.move (fun t => .token t.token) (p.cursor.nextSpanned s.length)
  | .nextSpanned => p.move .spanned (p.cursor.nextSpanned s.length)
  | .display => p.move (fun t => .text t.token.render) (p.cursor.nextSpanned s.length)
  | .next => p.move .optional p.cursor.next?
  | .isExhausted => (.truth (p.cursor.isExhausted s.length), p)
  | .inspect => (.text (p.cursor.inspect s), p)
  | .fork => (.done, ⟨p.cursor, some p.cursor⟩)
  | .restore =>
    match p.saved? with
    | none => (.truth false, p)
    | some c => (.truth true, ⟨c, some c⟩)
  | .take n => p.move .tokens (p.cursor.take n)
  | .nth n => p.move .optional (p.cursor.nth? n)
  | .collect => p.move .tokens (p.cursor.rest, .atEnd)
  | .count => p.move .number (p.cursor.rest.length, .atEnd)
  | .last => p.move .optional (p.cursor.rest.getLast?, .atEnd)
  | .bounds => (.bounds 0 none, p)

def run (s : List UInt8) (p : Playback ts) : List Session.Step → List Session.Answer
  | [] => []
  | x :: steps =>
    let (answer, p) := p.step s x
    answer :: p.run s steps

end Playback

theorem next?_of_tokens {p : Nat} {bytes : List UInt8} {t : SpannedToken} {ts : List SpannedToken}
    (h : Scan.tokens p bytes = t :: ts) :
    p ≤ t.span.stop ∧ Scan.next? p bytes = some (t, bytes.drop (t.span.stop - p)) := by
  obtain blank | ⟨gap, x, blank, hx, rfl⟩ := blank_or_munch bytes
  · simp [tokens_blank p blank] at h
  · rw [tokens_munch p blank hx] at h
    obtain rfl := (List.cons.inj h).1
    have width : p + gap.length + x.bytes.length - p = (gap ++ x.bytes).length := by
      rw [List.length_append]
      omega
    refine ⟨by simp only [Lexeme.token]; omega, ?_⟩
    rw [next?_munch p blank hx, Lexeme.token, width, ← List.append_assoc, List.drop_left]

theorem next?_of_tokens_eq_nil {p : Nat} {bytes : List UInt8} (h : Scan.tokens p bytes = []) :
    Scan.next? p bytes = none := by
  obtain blank | ⟨gap, x, blank, hx, rfl⟩ := blank_or_munch bytes
  · exact next?_blank p blank
  · simp [tokens_munch p blank hx] at h

theorem stopAfter_succ {ts : List SpannedToken} {n : Nat} (h : n < ts.length) :
    stopAfter ts (n + 1) = ts[n].span.stop := by
  rw [stopAfter, List.take_add_one, List.getElem?_eq_getElem h, Option.toList_some,
    List.getLast?_concat]
  rfl

theorem IsTokenization.drop {s : List UInt8} {ts : List SpannedToken}
    (whole : IsTokenization s 0 ts) {n : Nat} (h : n ≤ ts.length) :
    IsTokenization s (stopAfter ts n) (ts.drop n) := by
  induction n with
  | zero => exact whole
  | succ n ih =>
    have later := ih (Nat.le_of_lt h)
    rw [List.drop_eq_getElem_cons h] at later
    rw [stopAfter_succ h]
    exact later.tail

namespace Cursor

variable {s : List UInt8} {ts : List SpannedToken}

section Answers

variable (c : Cursor ts)

theorem ended_eq_false (lt : c.taken < ts.length) : c.ended = false := by
  cases ended : c.ended with
  | false => rfl
  | true =>
    have := c.taken_all ended
    omega

theorem nextSpanned_of_lt (length : Nat) (lt : c.taken < ts.length) :
    c.nextSpanned length = (ts[c.taken], c.advance 1 lt) := dif_pos lt

theorem nextSpanned_of_le (length : Nat) (le : ts.length ≤ c.taken) :
    c.nextSpanned length = (Scan.endToken length, atEnd) := dif_neg (Nat.not_lt_of_le le)

theorem next?_of_lt (lt : c.taken < ts.length) :
    c.next? = (some ts[c.taken].token, c.advance 1 lt) := dif_pos lt

theorem next?_of_le (le : ts.length ≤ c.taken) : c.next? = (none, atEnd) :=
  dif_neg (Nat.not_lt_of_le le)

theorem rest_of_lt (lt : c.taken < ts.length) :
    c.rest = ts[c.taken].token :: (c.advance 1 lt).rest := by
  rw [rest, List.drop_eq_getElem_cons lt, List.map_cons]
  rfl

theorem rest_of_le (le : ts.length ≤ c.taken) : c.rest = [] := by
  rw [rest, List.drop_eq_nil_of_le le, List.map_nil]

theorem take_zero : c.take 0 = ([], c) := by
  simp [take, advance, c.within]

theorem take_succ_of_lt (n : Nat) (lt : c.taken < ts.length) :
    c.take (n + 1) = (ts[c.taken].token :: ((c.advance 1 lt).take n).1,
      ((c.advance 1 lt).take n).2) := by
  simp only [take, rest_of_lt c lt, List.take_succ_cons, advance, Nat.add_assoc, Nat.add_comm 1]

theorem take_succ_of_le (n : Nat) (le : ts.length ≤ c.taken) : c.take (n + 1) = ([], atEnd) := by
  rw [take, rest_of_le c le, List.take_nil, dif_neg (by omega)]

theorem nth?_succ_of_lt (n : Nat) (lt : c.taken < ts.length) :
    c.nth? (n + 1) = (c.advance 1 lt).nth? n := by
  simp only [nth?, advance, Nat.add_assoc, Nat.add_comm 1]

theorem nth?_succ_of_le (n : Nat) (le : ts.length ≤ c.taken) : c.nth? (n + 1) = (none, atEnd) :=
  dif_neg (by omega)

end Answers

def lexer (s : List UInt8) (c : Cursor ts) : Lexer :=
  ⟨s, c.position s.length, s.drop (c.position s.length)⟩

theorem lexer_start (s : List UInt8) : (start : Cursor ts).lexer s = .ofBytes s := by
  simp [lexer, position, start, stop, stopAfter, Lexer.ofBytes]

theorem lexer_atEnd (s : List UInt8) : (atEnd : Cursor ts).lexer s = ⟨s, s.length, []⟩ := by
  simp [lexer, position, atEnd]

variable (whole : IsTokenization s 0 ts) (c : Cursor ts)

include whole

theorem position_le : c.position s.length ≤ s.length := by
  unfold position stop
  -- Before the first token the position is 0, and after it the end of a token.
  split
  · exact Nat.le_refl _
  · cases taken : c.taken with
    | zero => exact Nat.zero_le _
    | succ n =>
      have lt : n < ts.length := by
        have := c.within
        omega
      rw [stopAfter_succ lt]
      exact (whole.within _ (List.getElem_mem lt)).2.2

/-- The tokens that a lexer finds from its position on are those that the cursor has left. -/
theorem tokens_lexer :
    Scan.tokens (c.position s.length) (s.drop (c.position s.length)) = ts.drop c.taken := by
  cases ended : c.ended with
  | false =>
    rw [position, ended]
    exact (whole.drop c.within).eq_tokens.symm
  | true =>
    rw [position, ended, c.taken_all ended, List.drop_length]
    simp [tokens_blank]

theorem nextSpanned_lexer :
    (c.lexer s).nextSpanned = Prod.map id (lexer s) (c.nextSpanned s.length) := by
  have left := tokens_lexer whole c
  obtain lt | le := Nat.lt_or_ge c.taken ts.length
  · rw [List.drop_eq_getElem_cons lt] at left
    obtain ⟨before, read⟩ := next?_of_tokens left
    have reached : (c.advance 1 lt).position s.length = ts[c.taken].span.stop := by
      simp only [position, advance, c.ended_eq_false lt]
      exact stopAfter_succ lt
    rw [List.drop_drop, Nat.add_sub_cancel' before] at read
    rw [c.nextSpanned_of_lt _ lt]
    simp only [Lexer.nextSpanned, lexer, read, reached, Prod.map_apply, id]
  · rw [List.drop_eq_nil_of_le le] at left
    have read := next?_of_tokens_eq_nil left
    have to_end : c.position s.length + (s.length - c.position s.length) = s.length :=
      Nat.add_sub_cancel' (position_le whole c)
    rw [c.nextSpanned_of_le _ le, Prod.map_apply, lexer_atEnd]
    simp only [Lexer.nextSpanned, lexer, read, Lexer.atEnd, List.length_drop, to_end, id]

theorem next?_lexer : (c.lexer s).next? = Prod.map id (lexer s) c.next? := by
  rw [Lexer.next?, Lexer.nextToken, nextSpanned_lexer whole]
  obtain lt | le := Nat.lt_or_ge c.taken ts.length
  · have before_end := (whole.spelling _ (List.getElem_mem lt)).kind_ne_eof
    rw [c.nextSpanned_of_lt _ lt, c.next?_of_lt lt]
    simp [Token.isEof, before_end]
  · rw [c.nextSpanned_of_le _ le, c.next?_of_le le]
    rfl

theorem take_lexer (n : Nat) : (c.lexer s).take n = Prod.map id (lexer s) (c.take n) := by
  induction n generalizing c with
  | zero => rw [c.take_zero]; rfl
  | succ n ih =>
    rw [Lexer.take, next?_lexer whole]
    obtain lt | le := Nat.lt_or_ge c.taken ts.length
    · rw [c.next?_of_lt lt, c.take_succ_of_lt n lt]
      simp only [Prod.map_apply, Prod.map_fst, Prod.map_snd, id, ih]
    · rw [c.next?_of_le le, c.take_succ_of_le n le]
      rfl

theorem nth?_lexer (n : Nat) : (c.lexer s).nth? n = Prod.map id (lexer s) (c.nth? n) := by
  induction n generalizing c with
  | zero => exact next?_lexer whole c
  | succ n ih =>
    rw [Lexer.nth?, next?_lexer whole]
    obtain lt | le := Nat.lt_or_ge c.taken ts.length
    · rw [c.next?_of_lt lt, c.nth?_succ_of_lt n lt]
      exact ih _
    · rw [c.next?_of_le le, c.nth?_succ_of_le n le]
      rfl

theorem collectOnto_lexer (found : List Token) :
    (c.lexer s).collectOnto found = (found.reverse ++ c.rest, (atEnd : Cursor ts).lexer s) := by
  -- The lexer asks for tokens until it gets none; the cursor knows how many it has left.
  induction left : ts.length - c.taken generalizing c found with
  | zero =>
    have le : ts.length ≤ c.taken := by omega
    have none_left := next?_lexer whole c
    rw [c.next?_of_le le] at none_left
    rw [Lexer.collectOnto_of_none none_left, c.rest_of_le le, List.append_nil]
  | succ n ih =>
    have lt : c.taken < ts.length := by omega
    have one := next?_lexer whole c
    rw [c.next?_of_lt lt] at one
    rw [Lexer.collectOnto_of_some one, ih (c.advance 1 lt) _ (by simp only [advance]; omega),
      c.rest_of_lt lt, List.reverse_cons, List.append_assoc, List.singleton_append]

theorem collect_lexer : (c.lexer s).collect = (c.rest, (atEnd : Cursor ts).lexer s) :=
  collectOnto_lexer whole c []

theorem isExhausted_lexer : (c.lexer s).isExhausted = c.isExhausted s.length := by
  have le := position_le whole c
  rw [Bool.eq_iff_iff]
  simp only [Lexer.isExhausted, lexer, List.isEmpty_iff, List.drop_eq_nil_iff, isExhausted,
    Bool.or_eq_true, beq_iff_eq]
  unfold position at le ⊢
  split at le
  · simp_all
  · simp_all
    omega

theorem standsIn_lexer : (c.lexer s).StandsIn s := ⟨rfl, position_le whole c, rfl⟩

theorem inspect_lexer : (c.lexer s).inspect = c.inspect s := by
  have stands := standsIn_lexer whole c
  rw [Lexer.inspect, stands.current?, stands.readPosition]
  rfl

end Cursor

namespace Playback

variable {s : List UInt8} {ts : List SpannedToken}

def session (s : List UInt8) (p : Playback ts) : Session :=
  ⟨p.cursor.lexer s, p.saved?.map (Cursor.lexer s)⟩

variable (whole : IsTokenization s 0 ts)

include whole

theorem step_session (p : Playback ts) (x : Session.Step) :
    (p.session s).step x = Prod.map id (session s) (p.step s x) := by
  cases x with
  | nextToken | nextSpanned | display =>
    simp only [Session.step, session, Lexer.nextToken, Cursor.nextSpanned_lexer whole]
    rfl
  | next => simp only [Session.step, session, Cursor.next?_lexer whole]; rfl
  | isExhausted => simp only [Session.step, session, Cursor.isExhausted_lexer whole]; rfl
  | inspect => simp only [Session.step, session, Cursor.inspect_lexer whole]; rfl
  | fork => rfl
  | restore => cases saved : p.saved? <;> simp [Session.step, step, session, saved]
  | take n => simp only [Session.step, session, Cursor.take_lexer whole]; rfl
  | nth n => simp only [Session.step, session, Cursor.nth?_lexer whole]; rfl
  | collect | count | last =>
    simp only [Session.step, session, Lexer.count, Lexer.last?, Cursor.collect_lexer whole]
    rfl
  | bounds => rfl

theorem run_session (p : Playback ts) (steps : List Session.Step) :
    (p.session s).run steps = p.run s steps := by
  induction steps generalizing p with
  | nil => rfl
  | cons x steps ih =>
    rw [Session.run, step_session whole, run]
    simp only [Prod.map_fst, Prod.map_snd, id, ih]

end Playback

/-- Whatever the steps, a lexer answers like a cursor in the list of the tokens of its input. -/
theorem run_eq_playback (s : List UInt8) (steps : List Session.Step) :
    (Lexer.ofBytes s).Drains (Scan.tokens 0 s) (Scan.endToken s.length) ∧
      (Session.ofLexer (.ofBytes s)).run steps =
        (Playback.start : Playback (Scan.tokens 0 s)).run s steps := by
  have whole : IsTokenization s 0 (Scan.tokens 0 s) := IsTokenization.of_tokens (Nat.zero_le _)
  have played := Playback.run_session whole .start steps
  rw [Playback.session, Playback.start, Cursor.lexer_start] at played
  exact ⟨Lexer.drains_ofBytes s, played⟩

end Lexis
