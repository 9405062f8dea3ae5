import CborCodec.Proofs.Agreement
/-!
Callbacks of the drivers of arrays and maps. A callback may do to the input what it likes, and it
may fail; what is known is which calls the drivers make, and what they do between two of them. The
calls of a run are recorded alongside its state, where the drivers do not see them.
-/

namespace CborCodec

variable {ℓ σ τ α β : Type}

def alongside : EStateM.Result Error σ α → τ → EStateM.Result Error (σ × τ) α
  | .ok a t, o => .ok a (t, o)
  | .error e t, o => .error e (t, o)

theorem onFirst_apply (x : EStateM Error σ α) (s : σ) (o : τ) :
    onFirst x (s, o) = alongside (x s) o := by
  simp only [onFirst]
  cases x s <;> rfl

inductive Slot where
  | key
  | value
  deriving DecidableEq, Repr

structure Turn (ℓ σ : Type) where
  slot : ℓ
  result : EStateM.Result Error σ Unit

/-- A callback with a record of its calls, those that fail included. -/
def recorded (f : ℓ → EStateM Error σ Unit) (slot : ℓ) :
    EStateM Error (σ × List (Turn ℓ σ)) Unit :=
  fun (s, turns) => alongside (f slot s) (turns ++ [⟨slot, f slot s⟩])

def leftOff (s : σ) (turns : List (Turn ℓ σ)) : σ :=
  (turns.getLast?.map fun turn => final turn.result).getD s

theorem leftOff_append {s : σ} {turns more : List (Turn ℓ σ)} :
    leftOff s (turns ++ more) = leftOff (leftOff s turns) more := by
  unfold leftOff
  rcases List.eq_nil_or_concat more with rfl | ⟨front, last, rfl⟩
  · simp
  · simp [← List.append_assoc]

/-- Where calls have left off, whatever they were begun in. -/
theorem leftOff_of_ne_nil {s t : σ} {turns : List (Turn ℓ σ)} (h : turns ≠ []) :
    leftOff s turns = leftOff t turns := by
  obtain ⟨front, last, rfl⟩ := (List.eq_nil_or_concat turns).resolve_left h
  simp [leftOff]

/-- The calls that led to a result: they were made for slots as they are allowed, one after the
other, and one after which the run must end was the last. `Ends` tells such calls, with the failure
and the state that they lead to. -/
structure Keeps (Ends : Turn ℓ σ → Error → σ → Prop) (allowed : List ℓ) (turns : List (Turn ℓ σ))
    (r : EStateM.Result Error σ α) : Prop where
  slots : turns.map Turn.slot <+: allowed
  last : ∀ front turn back e t, turns = front ++ turn :: back → Ends turn e t →
    back = [] ∧ r = .error e t

namespace Keeps

variable {Ends : Turn ℓ σ → Error → σ → Prop} {allowed more : List ℓ}
  {turns later : List (Turn ℓ σ)} {a : α} {t : σ} {e : Error} {r : EStateM.Result Error σ β}

theorem nil : Keeps Ends allowed [] r :=
  ⟨List.nil_prefix, by simp⟩

/-- A call is the last one if the run must end after it. -/
theorem single {slot : ℓ} {q : EStateM.Result Error σ Unit}
    (h : ∀ e t, Ends ⟨slot, q⟩ e t → r = .error e t) :
    Keeps Ends (slot :: more) [⟨slot, q⟩] r := by
  refine ⟨by simp, fun front turn back e t hsplit hends => ?_⟩
  obtain ⟨-, rfl, rfl⟩ : front = [] ∧ turn = ⟨slot, q⟩ ∧ back = [] := by
    simpa [List.append_eq_singleton_iff] using hsplit.symm
  exact ⟨rfl, h e t hends⟩

/-- Calls that were all made go on with others. -/
theorem append (h : Keeps Ends allowed turns (.ok a t : EStateM.Result Error σ α))
    (hall : turns.length = allowed.length) (k : Keeps Ends more later r) :
    Keeps Ends (allowed ++ more) (turns ++ later) r := by
  refine ⟨?_, fun front turn back e u hsplit hends => ?_⟩
  · have hslots : turns.map Turn.slot = allowed := h.slots.eq_of_length (by simpa using hall)
    rw [List.map_append, hslots]
    exact (List.prefix_append_right_inj allowed).mpr k.slots
  · rcases List.append_eq_append_iff.mp hsplit with ⟨middle, rfl, hlater⟩ | ⟨middle, hturns, hcons⟩
    · exact k.last middle turn back e u hlater hends
    · cases middle with
      | nil => exact k.last [] turn back e u hcons.symm hends
      | cons first middle =>
        obtain ⟨rfl, -⟩ := List.cons.inj hcons
        exact absurd (h.last front turn middle e u hturns hends).2 (by simp)

/-- Where a run has failed nothing more is done. -/
theorem failed (h : Keeps Ends allowed turns (.error e t : EStateM.Result Error σ α))
    (k : allowed <+: more) : Keeps Ends more turns (.error e t : EStateM.Result Error σ β) := by
  refine ⟨h.slots.trans k, fun front turn back d u hsplit hends => ?_⟩
  obtain ⟨hback, hr⟩ := h.last front turn back d u hsplit hends
  cases hr
  exact ⟨hback, rfl⟩

/-- Where a run has succeeded no call had to end it, whatever its result is made to. -/
theorem succeeded (h : Keeps Ends allowed turns (.ok a t : EStateM.Result Error σ α))
    (k : allowed <+: more) : Keeps Ends more turns r :=
  ⟨h.slots.trans k, fun front turn back e u hsplit hends =>
    absurd (h.last front turn back e u hsplit hends).2 (by simp)⟩

end Keeps

/-- What is done up to a break depends on what is seen first. -/
theorem untilBreak_apply [Input σ] (item : β → EStateM Error σ β) (allowance count : Nat) (b : β)
    (s : σ) :
    untilBreak item allowance count b s = match atBreak s with
      | .error e t => .error e t
      | .ok true t => .ok (count, b) (Cursor.discard 1 t)
      | .ok false t => match allowance with
        | 0 => .error .itemValueOutOfRange t
        | allowance + 1 => (item b >>= untilBreak item allowance (count + 1)) t := by
  cases allowance <;> rw [untilBreak, bind_apply] <;> cases atBreak s with
  | error e t => rfl
  | ok ended t => cases ended <;> rfl

/-- Calls of an action alongside the same action without a record: one for each slot of a cycle if
it succeeds, and else the first of them. -/
def Rounds (Ends : Turn ℓ σ → Error → σ → Prop) (cycle : List ℓ)
    (x : EStateM Error (σ × List (Turn ℓ σ)) Unit) (y : EStateM Error σ Unit) : Prop :=
  ∀ s before, ∃ turns, x (s, before) = alongside (y s) (before ++ turns) ∧
    Keeps Ends cycle turns (y s) ∧
    ∀ t, y s = .ok () t → turns.length = cycle.length ∧ t = leftOff s turns

def Turn.Fails (turn : Turn ℓ σ) (e : Error) (t : σ) : Prop :=
  turn.result = .error e t

theorem rounds_recorded (f : ℓ → EStateM Error σ Unit) (slot : ℓ) :
    Rounds Turn.Fails [slot] (recorded f slot) (f slot) :=
  fun s before => ⟨[⟨slot, f slot s⟩], rfl, .single fun _ _ hends => hends,
    fun t ht => ⟨rfl, by simp [leftOff, ht]⟩⟩

namespace Rounds

variable {Ends : Turn ℓ σ → Error → σ → Prop} {cycle more : List ℓ}
  {x x' : EStateM Error (σ × List (Turn ℓ σ)) Unit} {y y' : EStateM Error σ Unit}

theorem pure : Rounds Ends [] (Pure.pure () : EStateM Error (σ × List (Turn ℓ σ)) Unit)
    (Pure.pure ()) :=
  fun s before => ⟨[], by rw [List.append_nil]; rfl, .nil, fun t ht => by
    cases ht
    exact ⟨rfl, rfl⟩⟩

/-- Rounds one after the other are the rounds of the longer cycle. -/
theorem seq (h : Rounds Ends cycle x y) (k : Rounds Ends more x' y') :
    Rounds Ends (cycle ++ more) (x >>= fun _ => x') (y >>= fun _ => y') := by
  intro s before
  obtain ⟨turns, hx, hkeeps, hall⟩ := h s before
  cases hy : y s with
  | error e t =>
    rw [hy] at hx hkeeps
    refine ⟨turns, ?_, ?_, ?_⟩ <;> simp only [bind_apply, hx, hy, alongside]
    · exact hkeeps.failed (List.prefix_append _ _)
    · simp
  | ok _ t =>
    rw [hy] at hx hkeeps
    obtain ⟨hlength, hoff⟩ := hall t hy
    obtain ⟨later, hx', hkeeps', hall'⟩ := k t (before ++ turns)
    refine ⟨turns ++ later, ?_, ?_, fun u hu => ?_⟩
    · simp only [bind_apply, hx, hy, alongside, hx', List.append_assoc]
    · simp only [bind_apply, hy]
      exact hkeeps.append hlength hkeeps'
    · simp only [bind_apply, hy] at hu
      obtain ⟨hlength', hoff'⟩ := hall' u hu
      exact ⟨by simp [hlength, hlength'], by rw [leftOff_append, ← hoff, ← hoff']⟩

/-- Rounds as often as a head says. -/
theorem repeatItem (h : Rounds Ends cycle x y) (n : Nat) :
    Rounds Ends (List.replicate n cycle).flatten (repeatItem (fun _ => x) n ())
      (CborCodec.repeatItem (fun _ => y) n ()) := by
  induction n with
  | zero => exact pure
  | succ n ih => exact h.seq ih

variable [Input σ]

variable (Ends cycle x y) in
def UntilBreak (allowance count : Nat) (s : σ) (before : List (Turn ℓ σ)) : Prop :=
  ∃ turns, untilBreak (fun _ => x) allowance count () (s, before) =
      alongside (untilBreak (fun _ => y) allowance count () s) (before ++ turns) ∧
    Keeps Ends (List.replicate allowance cycle).flatten turns
      (untilBreak (fun _ => y) allowance count () s) ∧
    ∀ k t, untilBreak (fun _ => y) allowance count () s = .ok (k, ()) t →
      ∃ n v, k = count + n ∧ turns.length = n * cycle.length ∧
        atBreak (leftOff s turns) = .ok true v ∧ t = Cursor.discard 1 v

/-- Where no round is begun there is a break, or the loop fails. -/
theorem untilBreak_idle {allowance : Nat} {s : σ}
    (hidle : ∀ t, atBreak s = .ok false t → allowance = 0) (count : Nat)
    (before : List (Turn ℓ σ)) : UntilBreak Ends cycle x y allowance count s before := by
  refine ⟨[], ?_, .nil, ?_⟩ <;> rw [untilBreak_apply]
  · rw [untilBreak_apply, ← onFirst_atBreak, onFirst_apply, List.append_nil]
    cases hb : atBreak s with
    | error e t => rfl
    | ok ended t =>
      cases ended with
      | true => rfl
      | false =>
        rw [hidle t hb]
        rfl
  · intro k u hok
    cases hb : atBreak s with
    | error e t => simp [hb] at hok
    | ok ended t =>
      cases ended with
      | true =>
        simp only [hb, EStateM.Result.ok.injEq, Prod.mk.injEq] at hok
        exact ⟨0, t, hok.1.1.symm, by simp, hb, hok.2.symm⟩
      | false => simp [hb, hidle t hb] at hok

/-- By induction on the allowance, the loop goes through the cycle until a break comes or a call
ends it. -/
theorem untilBreak (h : Rounds Ends cycle x y) (hcycle : cycle ≠ []) (allowance count : Nat) (s : σ)
    (before : List (Turn ℓ σ)) : UntilBreak Ends cycle x y allowance count s before := by
  induction allowance generalizing count s before with
  | zero => exact untilBreak_idle (fun _ _ => rfl) count before
  | succ allowance ih =>
    by_cases hbegins : ∃ v, atBreak s = .ok false v
    · obtain ⟨v, hb⟩ := hbegins
      obtain ⟨turns, hx, hkeeps, hall⟩ := h v before
      rw [UntilBreak, untilBreak_apply, untilBreak_apply, ← onFirst_atBreak, onFirst_apply, hb]
      simp only [alongside, bind_apply, hx, List.replicate_succ, List.flatten_cons]
      cases hy : y v with
      | error e t =>
        rw [hy] at hkeeps
        exact ⟨turns, rfl, hkeeps.failed (List.prefix_append _ _), by simp⟩
      | ok _ t =>
        rw [hy] at hkeeps
        obtain ⟨hlength, hoff⟩ := hall t hy
        obtain ⟨later, hx', hkeeps', hclosed⟩ := ih (count + 1) t (before ++ turns)
        refine ⟨turns ++ later, ?_, hkeeps.append hlength hkeeps', fun k u hok => ?_⟩
        · simp only [alongside, hx', List.append_assoc]
        · obtain ⟨n, w, hk, hn, hw, hu⟩ := hclosed k u hok
          have hne : turns ≠ [] := by
            rintro rfl
            exact hcycle (List.length_eq_zero_iff.mp hlength.symm)
          refine ⟨n + 1, w, by omega, ?_, ?_, hu⟩
          · rw [List.length_append, hlength, hn, Nat.succ_mul, Nat.add_comm]
          · rwa [leftOff_append, leftOff_of_ne_nil hne, ← hoff]
    · exact untilBreak_idle (fun t ht => absurd ⟨t, ht⟩ hbegins) count before

end Rounds

section Drivers

variable [Input σ] (options : Options)

/-- The driver of a container whose head has been read, with the action that reads an element where
the count is known and the one that does where a break may come. -/
def driveItems (major : Major) (head : Head) (definite indefinite : EStateM Error σ Unit) :
    EStateM Error σ (Nat × Unit) := do
  if head.indefinite then
    untilBreak (fun _ => indefinite) options.maxItems.toNat 0 ()
  else
    checkAvailable major head.value.toNat
    checkItems options head.value.toNat
    let b ← repeatItem (fun _ => definite) head.value.toNat ()
    return (head.value.toNat, b)

def drive (major : Major) (definite indefinite : EStateM Error σ Unit) :
    EStateM Error σ (Nat × Unit) := do
  let head ← readHead options.mode
  failIf (head.major ≠ major) .itemTypeMismatch
  driveItems options major head definite indefinite

theorem readArray_eq (f : EStateM Error σ Unit) :
    readArray options (fun _ => f) () = drive options .array f f := rfl

theorem readMap_eq (key value : EStateM Error σ Unit) :
    readMap options key (fun _ _ => value) () =
      drive options .map (key >>= fun _ => value)
        (key >>= fun k => owedValue (fun _ _ => value) k ()) := rfl

/-- A call after which an element or a pair cannot be read to its end: it has failed, or it was for
a key in front of a break. -/
def Turn.Breaks (turn : Turn Slot σ) (e : Error) (t : σ) : Prop :=
  turn.Fails e t ∨
    e = .itemTypeMismatch ∧ turn.slot = .key ∧
      ∃ u, turn.result = .ok () u ∧ atBreak u = .ok true t

def Turn.EndsMap : Bool → Turn Slot σ → Error → σ → Prop
  | false => Turn.Fails
  | true => Turn.Breaks

/-- A pair where a break may come. -/
theorem owedPair_apply (key value : EStateM Error σ Unit) (s : σ) :
    (key >>= fun k => owedValue (fun _ _ => value) k ()) s = match key s with
      | .error e t => .error e t
      | .ok _ t => match atBreak t with
        | .error e u => .error e u
        | .ok true u => .error .itemTypeMismatch u
        | .ok false u => value u := by
  simp only [bind_apply, owedValue]
  cases key s with
  | error e t => rfl
  | ok _ t =>
    cases hbreak : atBreak t with
    | error e u => simp [hbreak]
    | ok ended u => cases ended <;> simp [hbreak, failIf, pure_apply, throw_apply]

/-- A pair is a call for the key and then one for the value, before which a break ends the run. -/
theorem rounds_owedPair (f : Slot → EStateM Error σ Unit) :
    Rounds Turn.Breaks [.key, .value]
      (recorded f .key >>= fun k => owedValue (fun _ _ => recorded f .value) k ())
      (f .key >>= fun k => owedValue (fun _ _ => f .value) k ()) := by
  intro s before
  rw [owedPair_apply, owedPair_apply, recorded]
  cases f .key s with
  | error e t =>
    refine ⟨[⟨.key, .error e t⟩], rfl, .single ?_, by simp⟩
    rintro d u (hfails | ⟨-, -, v, hok, -⟩)
    · exact hfails
    · cases hok
  | ok _ t =>
    have hends {e : Error} {v : σ} (h : Turn.Breaks ⟨.key, .ok () t⟩ e v) :
        e = .itemTypeMismatch ∧ atBreak t = .ok true v := by
      rcases h with hfails | ⟨he, -, w, hok, hw⟩
      · cases hfails
      · cases hok
        exact ⟨he, hw⟩
    simp only [alongside, ← onFirst_atBreak, onFirst_apply]
    cases hbreak : atBreak t with
    | error e u =>
      refine ⟨[⟨.key, .ok () t⟩], rfl, .single fun d v h => ?_, by simp⟩
      cases hbreak.symm.trans (hends h).2
    | ok ended u =>
      cases ended with
      | true =>
        refine ⟨[⟨.key, .ok () t⟩], rfl, .single fun d v h => ?_, by simp⟩
        cases hbreak.symm.trans (hends h).2
        rw [(hends h).1]
      | false =>
        have hkey : Keeps Turn.Breaks [Slot.key] [⟨.key, .ok () t⟩]
            (.ok () u : EStateM.Result Error σ Unit) :=
          .single fun d v h => by cases hbreak.symm.trans (hends h).2
        have hvalue : Keeps Turn.Breaks [Slot.value] [⟨.value, f .value u⟩] (f .value u) := by
          refine .single ?_
          rintro d v (hfails | ⟨-, hslot, -⟩)
          · exact hfails
          · cases hslot
        refine ⟨_, ?_, (hkey.append rfl hvalue :), fun v hv => ⟨rfl, ?_⟩⟩
        · rw [← List.append_assoc]
          rfl
        · rw [leftOff_append]
          simp [leftOff, show f .value u = .ok () v from hv]

/-- Calls from a state to one where a container has ended: as many as its head has said, or up to a
break that is then consumed. -/
def EndsAfter (head : Head) (s : σ) (turns : List (Turn ℓ σ)) (count : Nat) (t : σ) : Prop :=
  if head.indefinite then
    ∃ u, atBreak (leftOff s turns) = .ok true u ∧ t = Cursor.discard 1 u ∧
      Advances (leftOff s turns) [breakByte] t
  else
    count = head.value.toNat ∧ t = leftOff s turns

theorem onFirst_readHead (mode : Mode) :
    (onFirst (readHead mode) : EStateM Error (σ × τ) Head) = readHead mode := by
  unfold readHead
  rw [onFirst_bind, onFirst_peekHead]
  rfl

omit [Input σ] in
theorem flatten_replicate_prefix {m n : Nat} (h : m ≤ n) (cycle : List ℓ) :
    (List.replicate m cycle).flatten <+: (List.replicate n cycle).flatten := by
  obtain ⟨k, rfl⟩ := Nat.exists_eq_add_of_le h
  rw [← List.replicate_append_replicate, List.flatten_append]
  exact List.prefix_append _ _

section Rounds

variable (Ends : Bool → Turn ℓ σ → Error → σ → Prop) {cycle : List ℓ}
  {x x' : EStateM Error (σ × List (Turn ℓ σ)) Unit} {y y' : EStateM Error σ Unit}

/-- A record of the calls changes nothing in a run, and they go through the slots of the cycle. -/
theorem Rounds.driveItems (hcycle : cycle ≠ []) (h : Rounds (Ends false) cycle x y)
    (h' : Rounds (Ends true) cycle x' y') (major : Major) (head : Head) (s : σ)
    (before : List (Turn ℓ σ)) :
    ∃ turns, driveItems options major head x x' (s, before) =
        alongside (CborCodec.driveItems options major head y y' s) (before ++ turns) ∧
      Keeps (Ends head.indefinite) (List.replicate options.maxItems.toNat cycle).flatten turns
        (CborCodec.driveItems options major head y y' s) ∧
      ∀ k t, CborCodec.driveItems options major head y y' s = .ok (k, ()) t →
        turns.length = k * cycle.length ∧ EndsAfter head s turns k t := by
  unfold CborCodec.driveItems
  cases hi : head.indefinite with
  | true =>
    obtain ⟨turns, hx, hkeeps, hok⟩ :=
      h'.untilBreak hcycle options.maxItems.toNat 0 s before
    refine ⟨turns, hx, hkeeps, fun k t hk => ?_⟩
    obtain ⟨n, u, hn, hlength, hu, rfl⟩ := hok k t hk
    rw [Nat.zero_add] at hn
    rw [EndsAfter, hi]
    exact ⟨hn ▸ hlength, u, hu, rfl, advances_break hu⟩
  | false =>
    simp only [Bool.false_eq_true, if_false, bind_apply, ← onFirst_checkAvailable, onFirst_apply]
    cases hc : checkAvailable major head.value.toNat s with
    | error e u => exact ⟨[], by simp [alongside], .nil, by simp⟩
    | ok _ u =>
      obtain ⟨-, rfl⟩ := checkAvailable_eq_ok.1 hc
      by_cases hitems : options.maxItems.toNat < head.value.toNat
      · simp only [alongside, checkItems, failIf, hitems, if_true, throw_apply]
        exact ⟨[], by rw [List.append_nil], .nil, by simp⟩
      · obtain ⟨turns, hx, hkeeps, hall⟩ := h.repeatItem head.value.toNat s before
        have hallowed := flatten_replicate_prefix (Nat.le_of_not_lt hitems) cycle
        simp only [alongside, checkItems, failIf, hitems, if_false, pure_apply, hx]
        cases hy : CborCodec.repeatItem (fun _ => y) head.value.toNat () s with
        | error e t =>
          rw [hy] at hkeeps
          exact ⟨turns, rfl, hkeeps.failed hallowed, by simp⟩
        | ok _ t =>
          rw [hy] at hkeeps
          obtain ⟨hlength, hoff⟩ := hall t hy
          refine ⟨turns, rfl, hkeeps.succeeded hallowed, fun k v hk => ?_⟩
          simp only [EStateM.Result.ok.injEq, Prod.mk.injEq] at hk
          obtain ⟨⟨rfl, -⟩, rfl⟩ := hk
          rw [EndsAfter, hi]
          exact ⟨by simp [hlength], rfl, hoff⟩

/-- The same with the head of the container, which says after which calls the run ends. -/
theorem Rounds.drive (hcycle : cycle ≠ []) (h : Rounds (Ends false) cycle x y)
    (h' : Rounds (Ends true) cycle x' y') (major : Major) (s : σ) :
    ∃ turns, drive options major x x' (s, []) =
        alongside (CborCodec.drive options major y y' s) turns ∧
      Keeps (fun turn e t => ∀ head u, readHead options.mode s = .ok head u →
          Ends head.indefinite turn e t)
        (List.replicate options.maxItems.toNat cycle).flatten turns
        (CborCodec.drive options major y y' s) ∧
      ∀ k t, CborCodec.drive options major y y' s = .ok (k, ()) t →
        turns.length = k * cycle.length ∧
          ∃ head u, readHead options.mode s = .ok head u ∧ head.major = major ∧
            EndsAfter head u turns k t := by
  simp only [CborCodec.drive, bind_apply, ← onFirst_readHead, onFirst_apply]
  cases hread : readHead options.mode s with
  | error e u => exact ⟨[], rfl, .nil, by simp⟩
  | ok head u =>
    by_cases hm : head.major = major
    · obtain ⟨turns, hx, hkeeps, hok⟩ := Rounds.driveItems options Ends hcycle h h' major head u []
      simp only [alongside, failIf, hm, ne_eq, not_true_eq_false, if_false, pure_apply, hx]
      refine ⟨turns, rfl, ⟨hkeeps.slots, fun front turn back e t hsplit hends => ?_⟩,
        fun k t hk => ?_⟩
      · exact hkeeps.last front turn back e t hsplit (hends head u rfl)
      · obtain ⟨hlength, hend⟩ := hok k t hk
        exact ⟨hlength, head, u, rfl, hm, hend⟩
    · simp only [alongside, failIf, hm, ne_eq, not_false_eq_true, if_true, throw_apply]
      exact ⟨[], rfl, .nil, by simp⟩

end Rounds

omit [Input σ] in
theorem flatten_replicate_pair (n : Nat) :
    (List.replicate n [Slot.key, Slot.value]).flatten =
      (List.range (2 * n)).map fun i => if i % 2 = 0 then .key else .value := by
  induction n with
  | zero => rfl
  | succ n ih =>
    rw [List.replicate_succ', List.flatten_append, ih, Nat.mul_succ, List.range_succ,
      List.range_succ]
    simp

/-- Keys and values of pairs take turns. -/
theorem slots_alternate {n : Nat} {slots : List Slot}
    (h : slots <+: (List.replicate n [Slot.key, Slot.value]).flatten) (i : Nat)
    (hi : i < slots.length) : slots[i] = if i % 2 = 0 then .key else .value := by
  rw [flatten_replicate_pair] at h
  rw [h.getElem hi, List.getElem_map, List.getElem_range]

theorem count_key_le {n : Nat} {slots : List Slot}
    (h : slots <+: (List.replicate n [Slot.key, Slot.value]).flatten) :
    slots.count .key ≤ n := by
  refine (h.sublist.count_le Slot.key).trans (Nat.le_of_eq ?_)
  simp [List.count_flatten, List.map_replicate]

end Drivers

/-- The drivers end, whatever is called, and a record of the calls says what they did. For an array
they were as many as it has elements, and never more than are allowed; for a map they were for keys
and values in turn, twice as many as there are pairs, and those for keys not more than are allowed.
Where the head gave no count, a break was consumed last, in the place of an element or key. A call
that failed was the last, and the driver failed as it did, in the same place; and a break in the
place of a value is a mismatch, and stays where it is. -/
theorem drivers_call_as_told [Input σ] (options : Options) (s : σ) :
    (∀ f : EStateM Error σ Unit, ∃ turns : List (Turn Unit σ),
      readArray options (fun _ => recorded (fun _ => f) ()) () (s, []) =
          alongside (readArray options (fun _ => f) () s) turns ∧
        turns.length ≤ options.maxItems.toNat ∧
        (∀ k t, readArray options (fun _ => f) () s = .ok (k, ()) t →
          turns.length = k ∧ ∃ head u, readHead options.mode s = .ok head u ∧
            head.major = .array ∧ EndsAfter head u turns k t) ∧
        ∀ front turn back e t, turns = front ++ turn :: back → turn.result = .error e t →
          back = [] ∧ readArray options (fun _ => f) () s = .error e t) ∧
      ∀ f : Slot → EStateM Error σ Unit, ∃ turns : List (Turn Slot σ),
        readMap options (recorded f .key) (fun _ _ => recorded f .value) () (s, []) =
            alongside (readMap options (f .key) (fun _ _ => f .value) () s) turns ∧
          (∀ i (h : i < turns.length), turns[i].slot = if i % 2 = 0 then .key else .value) ∧
          (turns.map Turn.slot).count .key ≤ options.maxItems.toNat ∧
          (∀ k t, readMap options (f .key) (fun _ _ => f .value) () s = .ok (k, ()) t →
            turns.length = 2 * k ∧ ∃ head u, readHead options.mode s = .ok head u ∧
              head.major = .map ∧ EndsAfter head u turns k t) ∧
          (∀ front turn back e t, turns = front ++ turn :: back → turn.result = .error e t →
            back = [] ∧ readMap options (f .key) (fun _ _ => f .value) () s = .error e t) ∧
          ∀ head u, readHead options.mode s = .ok head u → head.indefinite = true →
            ∀ front turn back v w, turns = front ++ turn :: back → turn.slot = .key →
              turn.result = .ok () v → atBreak v = .ok true w →
              back = [] ∧ Advances v [] w ∧
                readMap options (f .key) (fun _ _ => f .value) () s =
                  .error .itemTypeMismatch w := by
  refine ⟨fun f => ?_, fun f => ?_⟩
  · rw [readArray_eq, readArray_eq]
    obtain ⟨turns, hrun, hkeeps, hok⟩ :=
      Rounds.drive options (fun _ => Turn.Fails) (by simp)
        (rounds_recorded (fun _ => f) ()) (rounds_recorded (fun _ => f) ()) .array s
    refine ⟨turns, hrun, ?_, fun k t hk => ?_, fun front turn back e t hsplit hfails => ?_⟩
    · simpa using hkeeps.slots.length_le
    · simpa using hok k t hk
    · exact hkeeps.last front turn back e t hsplit fun _ _ _ => hfails
  · rw [readMap_eq, readMap_eq]
    obtain ⟨turns, hrun, hkeeps, hok⟩ :=
      Rounds.drive options Turn.EndsMap (by simp)
        ((rounds_recorded f .key).seq (rounds_recorded f .value)) (rounds_owedPair f) .map s
    refine ⟨turns, hrun, fun i h => ?_, count_key_le hkeeps.slots, fun k t hk => ?_,
      fun front turn back e t hsplit hfails => ?_,
      fun head u hread hi front turn back v w hsplit hslot hv hw => ?_⟩
    · have hslot := slots_alternate hkeeps.slots i (by simpa using h)
      rwa [List.getElem_map] at hslot
    · simpa [Nat.mul_comm] using hok k t hk
    · refine hkeeps.last front turn back e t hsplit fun head _ _ => ?_
      cases head.indefinite with
      | false => exact hfails
      | true => exact Or.inl hfails
    · have hends : Turn.Breaks turn .itemTypeMismatch w := Or.inr ⟨rfl, hslot, v, hv, hw⟩
      obtain ⟨hback, hr⟩ := hkeeps.last front turn back .itemTypeMismatch w hsplit
        fun head' u' hread' => by
          cases hread.symm.trans hread'
          rw [hi]
          exact hends
      exact ⟨hback, (atBreak_eq_ok hw).1, hr⟩

/-- A callback that moves past a byte is called for a key of a map without counts; then there is a
break, and it is left where the value should be. -/
theorem lone_key_mismatches :
    ∃ t, readMap {} (Input.skip 1) (fun _ _ => Input.skip 1) ()
        (MemoryInput.ofBytes [0xBF, 0x01, 0xFF]) = .error .itemTypeMismatch t ∧
      stream t = [0xFF] := by
  obtain ⟨turns, hrun, -, -, -, -, hbreak⟩ :=
    (drivers_call_as_told {} (MemoryInput.ofBytes [0xBF, 0x01, 0xFF])).2 fun _ => Input.skip 1
  have hturns : (.error .itemTypeMismatch
        (⟨⟨[0xFF], 1, rfl⟩, 2⟩, [⟨.key, .ok () ⟨⟨[0xFF], 1, rfl⟩, 2⟩⟩]) :
      EStateM.Result Error (MemoryInput × List (Turn Slot MemoryInput)) (Nat × Unit)) =
      alongside (.error .itemTypeMismatch ⟨⟨[0xFF], 1, rfl⟩, 2⟩) turns := hrun
  simp only [alongside, EStateM.Result.error.injEq, Prod.mk.injEq, true_and] at hturns
  obtain ⟨-, -, hmismatch⟩ := hbreak ⟨.map, true, 1, 0⟩ ⟨⟨[0x01, 0xFF], 2, rfl⟩, 1⟩ rfl rfl [] _ []
    ⟨⟨[0xFF], 1, rfl⟩, 2⟩ ⟨⟨[0xFF], 1, rfl⟩, 2⟩ hturns.symm rfl rfl rfl
  exact ⟨_, hmismatch, rfl⟩

end CborCodec
