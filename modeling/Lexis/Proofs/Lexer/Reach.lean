import Lexis.Lexer.Session
import Lexis.Proofs.Lexer.Registers
set_option autoImplicit false

/-!
The states of a lexer in a session. Every step of a session scans some tokens one after the other,
so what one scan preserves holds in every state. Main statement: in each state the lexer stands in
its input behind the last token that was scanned, whatever steps led to it.
-/
namespace Lexis

/-- Scanning tokens one after the other leads from one state to another. -/
inductive Scans {σ : Type} (next : σ → SpannedToken × σ) : σ → List SpannedToken → σ → Prop where
  | none {x : σ} : Scans next x [] x
  | more {x y : σ} {ts : List SpannedToken} :
      Scans next (next x).2 ts y → Scans next x ((next x).1 :: ts) y

namespace Scans

variable {σ : Type} {next : σ → SpannedToken × σ} {x y z : σ} {ts us : List SpannedToken}

theorem one : Scans next x [(next x).1] (next x).2 := .more .none

theorem cons {t : SpannedToken} (first : next x = (t, y)) (rest : Scans next y ts z) :
    Scans next x (t :: ts) z := by
  have scanned : Scans next x ((next x).1 :: ts) z := .more (by rwa [first])
  rwa [first] at scanned

theorem append (first : Scans next x ts y) (second : Scans next y us z) :
    Scans next x (ts ++ us) z := by
  induction first with
  | none => exact second
  | more _ ih => exact .more (ih second)

end Scans

def beforeEnd (ts : List SpannedToken) : List Token := (ts.map (·.token)).filter (!·.isEof)

theorem beforeEnd_cons_of_isEof {t : SpannedToken} (ts : List SpannedToken)
    (h : t.token.isEof = true) : beforeEnd (t :: ts) = beforeEnd ts := by
  simp [beforeEnd, h]

theorem beforeEnd_cons_of_not_isEof {t : SpannedToken} (ts : List SpannedToken)
    (h : t.token.isEof = false) : beforeEnd (t :: ts) = t.token :: beforeEnd ts := by
  simp [beforeEnd, h]

namespace Lexer

variable {l l' : Lexer} {s : List UInt8} {ts : List SpannedToken}

namespace StandsIn

variable (h : l.StandsIn s) (scans : Scans Lexer.nextSpanned l ts l')

include h scans

theorem of_scans : l'.StandsIn s := by
  induction scans with
  | none => exact h
  | more _ ih => exact ih h.nextSpanned.1

theorem position_le_of_scans : l.position ≤ l'.position := by
  induction scans with
  | none => exact Nat.le_refl _
  | more _ ih =>
    obtain ⟨next, moves⟩ := h.nextSpanned
    exact Nat.le_trans moves.position_le (ih next)

theorem position_lt_of_scans (found : beforeEnd ts ≠ []) : l.position < l'.position := by
  induction scans with
  | none => exact absurd rfl found
  | @more l l' ts rest ih =>
    obtain ⟨next, moves⟩ := h.nextSpanned
    cases at_end : l.nextSpanned.1.token.isEof with
    | true =>
      rw [beforeEnd_cons_of_isEof ts at_end] at found
      exact Nat.lt_of_le_of_lt moves.position_le (ih next found)
    | false =>
      have before_end : l.nextSpanned.1.token.kind ≠ .eof := by simpa [Token.isEof] using at_end
      exact Nat.lt_of_lt_of_le (moves.position_lt before_end) (next.position_le_of_scans rest)

theorem position_eq_of_scans :
    l'.position = (ts.getLast?.map (·.span.stop)).getD l.position := by
  induction scans with
  | none => rfl
  | more _ ih =>
    obtain ⟨next, moves⟩ := h.nextSpanned
    rw [ih next, List.getLast?_cons, moves.stop]
    simp [Option.getD_map]

theorem registers_of_scans : Scans Registers.nextSpanned l.registers ts l'.registers := by
  induction scans with
  | none => exact .none
  | more _ ih => exact .cons h.nextSpanned_registers (ih h.nextSpanned.1)

end StandsIn

end Lexer

def ReachesEnd (ts : List SpannedToken) : Prop := ∃ us t, ts = us ++ [t] ∧ t.token.isEof = true

theorem ReachesEnd.cons {ts : List SpannedToken} (h : ReachesEnd ts) (t : SpannedToken) :
    ReachesEnd (t :: ts) := by
  obtain ⟨us, last, rfl, at_end⟩ := h
  exact ⟨t :: us, last, rfl, at_end⟩

namespace Lexer

theorem next?_cases (l : Lexer) :
    (l.nextSpanned.1.token.isEof = true ∧ l.next? = (none, l.nextSpanned.2)) ∨
      (l.nextSpanned.1.token.isEof = false ∧
        l.next? = (some l.nextSpanned.1.token, l.nextSpanned.2)) := by
  cases at_end : l.nextSpanned.1.token.isEof <;> simp [next?, nextToken, at_end]

theorem next?_scans (l : Lexer) : ∃ t, Scans nextSpanned l [t] l.next?.2 ∧
    l.next?.1 = (beforeEnd [t]).head? := by
  obtain ⟨at_end, answer⟩ | ⟨before_end, answer⟩ := l.next?_cases
  · rw [answer]
    refine ⟨_, .one, ?_⟩
    rw [beforeEnd_cons_of_isEof [] at_end]
    rfl
  · rw [answer]
    refine ⟨_, .one, ?_⟩
    rw [beforeEnd_cons_of_not_isEof [] before_end]
    rfl

theorem take_scans (n : Nat) (l : Lexer) : ∃ ts, Scans nextSpanned l ts (l.take n).2 ∧
    ts.length ≤ n ∧ (l.take n).1 = beforeEnd ts := by
  induction n generalizing l with
  | zero => exact ⟨[], .none, Nat.le_refl _, rfl⟩
  | succ n ih =>
    rw [take]
    obtain ⟨at_end, answer⟩ | ⟨before_end, answer⟩ := l.next?_cases
    · rw [answer]
      refine ⟨_, .one, Nat.le_add_left 1 n, ?_⟩
      rw [beforeEnd_cons_of_isEof [] at_end]
      rfl
    · obtain ⟨ts, scans, few, tokens⟩ := ih l.nextSpanned.2
      rw [answer]
      refine ⟨_, .more scans, Nat.add_le_add_right few 1, ?_⟩
      rw [beforeEnd_cons_of_not_isEof ts before_end, ← tokens]

theorem nth?_scans (n : Nat) (l : Lexer) : ∃ ts, Scans nextSpanned l ts (l.nth? n).2 ∧
    ts.length ≤ n + 1 ∧ (l.nth? n).1 = (beforeEnd ts)[n]? := by
  induction n generalizing l with
  | zero =>
    obtain ⟨t, scans, answer⟩ := l.next?_scans
    exact ⟨[t], scans, Nat.le_refl _, answer.trans List.head?_eq_getElem?⟩
  | succ n ih =>
    rw [nth?]
    obtain ⟨at_end, answer⟩ | ⟨before_end, answer⟩ := l.next?_cases
    · rw [answer]
      refine ⟨_, .one, Nat.le_add_left 1 (n + 1), ?_⟩
      rw [beforeEnd_cons_of_isEof [] at_end]
      rfl
    · obtain ⟨ts, scans, few, found⟩ := ih l.nextSpanned.2
      rw [answer]
      refine ⟨_, .more scans, Nat.add_le_add_right few 1, ?_⟩
      rw [beforeEnd_cons_of_not_isEof ts before_end, List.getElem?_cons_succ, ← found]

theorem collectOnto_scans (found : List Token) (l : Lexer) : ∃ ts,
    Scans nextSpanned l ts (l.collectOnto found).2 ∧ ReachesEnd ts ∧
    (l.collectOnto found).1 = found.reverse ++ beforeEnd ts := by
  fun_induction collectOnto found l with
  | case1 found l l' last =>
    obtain ⟨at_end, answer⟩ | ⟨_, answer⟩ := l.next?_cases
    · obtain rfl := (Prod.mk.inj (answer.symm.trans last)).2
      refine ⟨_, .one, ⟨[], _, rfl, at_end⟩, ?_⟩
      rw [beforeEnd_cons_of_isEof [] at_end]
      exact (List.append_nil _).symm
    · simp [answer] at last
  | case2 found l t l' more ih =>
    obtain ⟨_, answer⟩ | ⟨before_end, answer⟩ := l.next?_cases
    · simp [answer] at more
    · obtain ⟨token, rfl⟩ := Prod.mk.inj (answer.symm.trans more)
      obtain ⟨ts, scans, ends, tokens⟩ := ih
      refine ⟨_, .more scans, ends.cons _, ?_⟩
      rw [tokens, beforeEnd_cons_of_not_isEof ts before_end, Option.some.inj token,
        List.reverse_cons, List.append_assoc, List.singleton_append]

end Lexer

namespace Session

/-- The tokens that a step scans are those of its answer, apart from end tokens. -/
def Step.Shows (ts : List SpannedToken) : Step → Answer → Prop
  | .nextToken, a => ∃ t, ts = [t] ∧ a = .token t.token
  | .nextSpanned, a => ∃ t, ts = [t] ∧ a = .spanned t
  | .display, a => ∃ t, ts = [t] ∧ a = .text t.token.render
  | .next, a => ∃ t, ts = [t] ∧ a = .optional (beforeEnd ts).head?
  | .take n, a => ts.length ≤ n ∧ a = .tokens (beforeEnd ts)
  | .nth n, a => ts.length ≤ n + 1 ∧ a = .optional (beforeEnd ts)[n]?
  | .collect, a => ReachesEnd ts ∧ a = .tokens (beforeEnd ts)
  | .count, a => ReachesEnd ts ∧ a = .number (beforeEnd ts).length
  | .last, a => ReachesEnd ts ∧ a = .optional (beforeEnd ts).getLast?
  | .isExhausted, _ | .inspect, _ | .fork, _ | .restore, _ | .bounds, _ => ts = []

def after (p : Session) (steps : List Step) : Session := steps.foldl (fun p x => (p.step x).2) p

def lexers (p : Session) : List Lexer := p.lexer :: p.saved?.toList

theorem step_scans (p : Session) (x : Step) : ∃ l ∈ p.lexers, ∃ ts,
    (x ≠ .restore → l = p.lexer) ∧ Scans Lexer.nextSpanned l ts (p.step x).2.lexer ∧
    x.Shows ts (p.step x).1 := by
  have here : p.lexer ∈ p.lexers := List.mem_cons_self
  cases x with
  | nextToken | nextSpanned | display =>
    exact ⟨_, here, _, fun _ => rfl, .one, _, rfl, rfl⟩
  | next =>
    obtain ⟨t, scans, answer⟩ := p.lexer.next?_scans
    exact ⟨_, here, _, fun _ => rfl, scans, t, rfl, congrArg Answer.optional answer⟩
  | isExhausted | inspect | fork | bounds => exact ⟨_, here, _, fun _ => rfl, .none, rfl⟩
  | restore =>
    cases saved : p.saved? with
    | none => exact ⟨_, here, _, nofun, by simp only [step, saved]; exact .none, rfl⟩
    | some l =>
      refine ⟨l, by simp [lexers, saved], _, fun other => absurd rfl other, ?_, rfl⟩
      simp only [step, saved]
      exact .none
  | take n =>
    obtain ⟨ts, scans, few, tokens⟩ := p.lexer.take_scans n
    exact ⟨_, here, ts, fun _ => rfl, scans, few, congrArg Answer.tokens tokens⟩
  | nth n =>
    obtain ⟨ts, scans, few, found⟩ := p.lexer.nth?_scans n
    exact ⟨_, here, ts, fun _ => rfl, scans, few, congrArg Answer.optional found⟩
  | collect | count | last =>
    obtain ⟨ts, scans, ends, tokens⟩ := p.lexer.collectOnto_scans []
    rw [List.reverse_nil, List.nil_append] at tokens
    refine ⟨_, here, ts, fun _ => rfl, scans, ends, ?_⟩
    simp only [step, move, Lexer.count, Lexer.last?, Lexer.collect, tokens]

theorem mem_lexers_step {p : Session} {x : Step} {l : Lexer} (h : l ∈ (p.step x).2.lexers) :
    l = (p.step x).2.lexer ∨ l ∈ p.lexers := by
  obtain here | copy := List.mem_cons.1 h
  · exact .inl here
  · refine .inr ?_
    cases x with
    | fork =>
      obtain rfl := Option.some.inj (Option.mem_toList.1 copy)
      exact List.mem_cons_self
    | restore =>
      cases saved : p.saved? with
      | none => simp [step, saved] at copy
      | some c =>
        rw [lexers, saved]
        simp only [step, saved] at copy
        exact List.mem_cons_of_mem _ copy
    | _ => exact List.mem_cons_of_mem _ copy

end Session

/-- What a lexer shows once it has scanned the tokens of a log from the start of its input on. -/
structure Lexer.Follows (s : List UInt8) (log : List SpannedToken) (l : Lexer) : Prop where
  input : l.input = s
  position_le : l.position ≤ s.length
  readPosition : l.readPosition = min (l.position + 1) s.length
  current? : l.current? = s[l.position]?
  at_end : l.current? = none ↔ l.position = s.length
  registers : Scans Registers.nextSpanned (.ofBytes s) log l.registers
  position : l.position = (log.getLast?.map (·.span.stop)).getD 0
  moves : l.Moves l.nextSpanned.1 l.nextSpanned.2
  to_come : ∃ us last, (ofBytes (s.drop l.position)).Drains us last ∧ ∀ ts last',
    l.Drains ts last' ↔ ts = us.map (SpannedToken.shift l.position) ∧ last' = last.shift l.position

theorem Lexer.follows_of_scans {s : List UInt8} {log : List SpannedToken} {l : Lexer}
    (scans : Scans Lexer.nextSpanned (.ofBytes s) log l) : l.Follows s log := by
  have start := standsIn_ofBytes s
  have h := start.of_scans scans
  have registers := start.registers_of_scans scans
  rw [start.registers_eq] at registers
  exact ⟨h.input, h.position_le, h.readPosition, h.current?, h.current?_eq_none_iff,
    Registers.ofBytes_eq s ▸ registers, start.position_eq_of_scans scans, h.nextSpanned.2,
    h.exists_drained⟩

namespace Session

def ScansOf (s : List UInt8) (p : Session) : Prop :=
  ∀ l ∈ p.lexers, ∃ log, Scans Lexer.nextSpanned (.ofBytes s) log l

variable {s : List UInt8} {p : Session}

theorem scansOf_ofBytes (s : List UInt8) : (ofLexer (.ofBytes s)).ScansOf s := by
  intro l mem
  obtain rfl := List.mem_singleton.1 mem
  exact ⟨[], .none⟩

theorem ScansOf.step (h : p.ScansOf s) (x : Step) : (p.step x).2.ScansOf s := by
  intro l mem
  obtain rfl | old := mem_lexers_step mem
  · obtain ⟨from_lexer, known, ts, _, scans, _⟩ := p.step_scans x
    obtain ⟨log, before⟩ := h from_lexer known
    exact ⟨log ++ ts, before.append scans⟩
  · exact h l old

theorem ScansOf.after (h : p.ScansOf s) (steps : List Step) : (p.after steps).ScansOf s := by
  induction steps generalizing p with
  | nil => exact h
  | cons x steps ih => exact ih (h.step x)

/-- Each lexer of a session shows where it stands in its input, and a step only moves a lexer on, by
at least one byte if it finds a token. -/
structure Follows (s : List UInt8) (p : Session) : Prop where
  lexers : ∀ l ∈ p.lexers, (∃ log, Scans Lexer.nextSpanned (.ofBytes s) log l) ∧
    ∀ log, Scans Lexer.nextSpanned (.ofBytes s) log l → l.Follows s log
  step : ∀ x, ∃ l ∈ p.lexers, ∃ ts, (x ≠ .restore → l = p.lexer) ∧
    Scans Lexer.nextSpanned l ts (p.step x).2.lexer ∧ x.Shows ts (p.step x).1 ∧
    l.position ≤ (p.step x).2.lexer.position ∧
    (beforeEnd ts ≠ [] → l.position < (p.step x).2.lexer.position)

theorem ScansOf.follows (h : p.ScansOf s) : p.Follows s := by
  refine ⟨fun l mem => ⟨h l mem, fun log scans => Lexer.follows_of_scans scans⟩, fun x => ?_⟩
  obtain ⟨l, mem, ts, same, scans, shows⟩ := p.step_scans x
  obtain ⟨log, before⟩ := h l mem
  have stands := (Lexer.standsIn_ofBytes s).of_scans before
  exact ⟨l, mem, ts, same, scans, shows, stands.position_le_of_scans scans,
    stands.position_lt_of_scans scans⟩

/-- Whatever steps led to it, each lexer of a session follows the scan of its input. -/
theorem after_follows (s : List UInt8) (steps : List Step) :
    ((ofLexer (.ofBytes s)).after steps).Follows s :=
  ((scansOf_ofBytes s).after steps).follows

end Session

end Lexis
