import Lexis.Acceptance
set_option autoImplicit false

/-!
Which lists a rule accepts and which pairs are compared for it, said by index and without the way
through the pairs. Main statement: the judgement that is made of two lists is the only one that fits
this, and it rests on the answers of the rule at the compared pairs alone.
-/
namespace Lexis.Acceptance

variable {α β : Type} {rule rule' : α → β → Bool} {xs : List α} {ys : List β}

def AcceptsAt (rule : α → β → Bool) (xs : List α) (ys : List β) (i : Nat) : Prop :=
  ∀ x ∈ xs[i]?, ∀ y ∈ ys[i]?, rule x y = true

/-- Lists are accepted if they have one length and the rule accepts every index. Of lists of one
length a pair is compared if the rule accepts every index in front of it, so the last pair compared
is the first one refused, or the last one of all. -/
structure Judges (a : Acceptance α β) (rule : α → β → Bool) (xs : List α) (ys : List β) : Prop where
  accepted_iff : a.accepted = true ↔ xs.length = ys.length ∧ ∀ i, AcceptsAt rule xs ys i
  none_compared : xs.length ≠ ys.length → a.compared = []
  compared_iff : xs.length = ys.length → ∀ (i : Nat) (p : α × β), a.compared[i]? = some p ↔
    xs[i]? = some p.1 ∧ ys[i]? = some p.2 ∧ ∀ j < i, AcceptsAt rule xs ys j

theorem acceptsAt_iff {i : Nat} :
    AcceptsAt rule xs ys i ↔ ∀ p, (xs.zip ys)[i]? = some p → rule p.1 p.2 = true := by
  simp only [List.getElem?_zip_eq_some, Prod.forall]
  exact ⟨fun accepts x y ⟨hx, hy⟩ => accepts x hx y hy, fun accepts x hx y hy =>
    accepts x y ⟨hx, hy⟩⟩

section Pairs

variable {x : α} {y : β} {pairs : List (α × β)}

theorem ofPairs_cons_of_accepted (accepts : rule x y = true) (rest : List (α × β)) :
    ofPairs rule ((x, y) :: rest) =
      ⟨(ofPairs rule rest).accepted, (x, y) :: (ofPairs rule rest).compared⟩ :=
  if_pos accepts

theorem ofPairs_cons_of_refused (refuses : ¬rule x y = true) (rest : List (α × β)) :
    ofPairs rule ((x, y) :: rest) = ⟨false, [(x, y)]⟩ :=
  if_neg refuses

theorem accepted_ofPairs_iff :
    (ofPairs rule pairs).accepted = true ↔ ∀ p ∈ pairs, rule p.1 p.2 = true := by
  induction pairs using ofPairs.induct rule with
  | case1 => simp [ofPairs]
  | case2 x y rest accepts ih => simp [ofPairs_cons_of_accepted accepts, accepts, ih]
  | case3 x y rest refuses => simp [ofPairs_cons_of_refused refuses, refuses]

theorem getElem?_compared_ofPairs {i : Nat} {p : α × β} :
    (ofPairs rule pairs).compared[i]? = some p ↔ pairs[i]? = some p ∧
      ∀ j < i, ∀ q, pairs[j]? = some q → rule q.1 q.2 = true := by
  induction pairs using ofPairs.induct rule generalizing i with
  | case1 => simp [ofPairs]
  | case2 x y rest accepts ih =>
    rw [ofPairs_cons_of_accepted accepts]
    cases i with
    | zero => simp
    | succ i =>
      rw [Nat.forall_lt_succ_left]
      simp [ih, accepts]
  | case3 x y rest refuses =>
    rw [ofPairs_cons_of_refused refuses]
    cases i with
    | zero => simp
    | succ i =>
      rw [Nat.forall_lt_succ_left]
      simp [refuses]

theorem accepted_of_compared_eq_nil (unseen : (ofPairs rule pairs).compared = []) :
    (ofPairs rule pairs).accepted = true := by
  cases pairs using ofPairs.induct rule with
  | case1 => rfl
  | case2 x y rest accepts => simp [ofPairs_cons_of_accepted accepts] at unseen
  | case3 x y rest refuses => simp [ofPairs_cons_of_refused refuses] at unseen

theorem ofPairs_cons_ne_of_accepted (accepts : rule x y = true) (rest : List (α × β)) :
    ofPairs rule ((x, y) :: rest) ≠ ⟨false, [(x, y)]⟩ := by
  rw [ofPairs_cons_of_accepted accepts]
  intro same
  obtain ⟨refused, compared⟩ := Acceptance.ext_iff.1 same
  have accepted := accepted_of_compared_eq_nil (List.cons.inj compared).2
  exact nomatch accepted.symm.trans refused

/-- Two rules judge alike exactly when they agree on what the second of them is asked. -/
theorem ofPairs_eq_ofPairs_iff : ofPairs rule' pairs = ofPairs rule pairs ↔
    ∀ p ∈ (ofPairs rule pairs).compared, rule' p.1 p.2 = rule p.1 p.2 := by
  induction pairs using ofPairs.induct rule with
  | case1 => simp [ofPairs]
  | case2 x y rest accepts ih =>
    rw [ofPairs_cons_of_accepted accepts, List.forall_mem_cons, ← ih]
    by_cases accepts' : rule' x y = true
    · simp [ofPairs_cons_of_accepted accepts', accepts, accepts', Acceptance.ext_iff]
    · rw [ofPairs_cons_of_refused accepts', ← ofPairs_cons_of_accepted accepts]
      simp [(ofPairs_cons_ne_of_accepted accepts rest).symm, accepts, accepts']
  | case3 x y rest refuses =>
    rw [ofPairs_cons_of_refused refuses]
    by_cases accepts' : rule' x y = true
    · simp [ofPairs_cons_ne_of_accepted accepts', accepts', refuses]
    · simp [ofPairs_cons_of_refused accepts', accepts', refuses]

end Pairs

theorem judges_ofLists (rule : α → β → Bool) (xs : List α) (ys : List β) :
    (ofLists rule xs ys).Judges rule xs ys := by
  by_cases lengths : xs.length = ys.length
  · rw [ofLists, if_pos lengths]
    refine ⟨?_, fun other => absurd lengths other, fun _ i p => ?_⟩
    · simp only [accepted_ofPairs_iff, lengths, true_and, acceptsAt_iff, List.mem_iff_getElem?]
      exact ⟨fun accepts i p hp => accepts p ⟨i, hp⟩, fun accepts p ⟨i, hp⟩ => accepts i p hp⟩
    · rw [getElem?_compared_ofPairs, List.getElem?_zip_eq_some, and_assoc]
      simp only [acceptsAt_iff]
  · rw [ofLists, if_neg lengths]
    exact ⟨by simp [lengths], fun _ => rfl, fun same => absurd same lengths⟩

theorem Judges.unique {a b : Acceptance α β} (h : a.Judges rule xs ys)
    (h' : b.Judges rule xs ys) : a = b := by
  have accepted : a.accepted = b.accepted := by
    rw [Bool.eq_iff_iff, h.accepted_iff, h'.accepted_iff]
  have compared : a.compared = b.compared := by
    by_cases lengths : xs.length = ys.length
    · refine List.ext_getElem? fun i => Option.ext fun p => ?_
      rw [h.compared_iff lengths, h'.compared_iff lengths]
    · rw [h.none_compared lengths, h'.none_compared lengths]
  exact Acceptance.ext accepted compared

theorem ofLists_eq_ofLists_iff : ofLists rule' xs ys = ofLists rule xs ys ↔
    ∀ p ∈ (ofLists rule xs ys).compared, rule' p.1 p.2 = rule p.1 p.2 := by
  by_cases lengths : xs.length = ys.length
  · simp only [ofLists, if_pos lengths]
    exact ofPairs_eq_ofPairs_iff
  · simp [ofLists, lengths]

theorem eq_iff_acceptsAt [DecidableEq α] {xs ys : List α} :
    xs = ys ↔ xs.length = ys.length ∧ ∀ i, AcceptsAt (· == ·) xs ys i := by
  constructor
  · rintro rfl
    refine ⟨rfl, fun i x hx y hy => ?_⟩
    exact beq_of_eq (Option.some.inj (hx.symm.trans hy))
  · rintro ⟨lengths, accepts⟩
    refine List.ext_getElem lengths fun i hx hy => ?_
    exact eq_of_beq (accepts i _ (List.getElem?_eq_getElem hx) _ (List.getElem?_eq_getElem hy))

/-- Two lists get the one judgement that the rule asks for, from its answers at the compared pairs
alone. By equality, equal lists and no others are accepted. -/
theorem ofLists_judges :
    (∀ (rule : α → β → Bool) (xs : List α) (ys : List β),
      (∀ a : Acceptance α β, a.Judges rule xs ys ↔ a = ofLists rule xs ys) ∧
      ∀ rule' : α → β → Bool, ofLists rule' xs ys = ofLists rule xs ys ↔
        ∀ p ∈ (ofLists rule xs ys).compared, rule' p.1 p.2 = rule p.1 p.2) ∧
    ∀ [DecidableEq α] (xs ys : List α), (ofLists (· == ·) xs ys).accepted = true ↔ xs = ys := by
  refine ⟨fun rule xs ys => ⟨fun a => ⟨fun h => ?_, ?_⟩, fun rule' => ofLists_eq_ofLists_iff⟩,
    fun xs ys => ?_⟩
  · exact h.unique (judges_ofLists rule xs ys)
  · rintro rfl
    exact judges_ofLists rule xs ys
  · rw [(judges_ofLists _ xs ys).accepted_iff, eq_iff_acceptsAt]

example : ofLists (· == ·) [1, 2, 3] [1, 9, 3] = (⟨false, [(1, 1), (2, 9)]⟩ : Acceptance Nat Nat) :=
  rfl

end Lexis.Acceptance
