import CborCodec.Proofs.Pairing
/-!
Declared counts. A container that succeeds has had exactly the calls that it declares, whether
they succeeded or not, for a call takes its place before it is tried. So the count is that of the
items only if no failure of a call was passed over.
-/

namespace CborCodec

namespace ChunkCall

variable {τ α : Type} [Output τ] {emit : α → EStateM Error τ Unit} {calls : List (ChunkCall α)}
  {m : Major} {s t : τ}

/-- The same call, with its failure passed on. -/
def propagating : ChunkCall α → ChunkCall α
  | attempt c => chunk c
  | c => c

theorem propagates_propagating (calls : List (ChunkCall α)) :
    ∀ c ∈ calls.map propagating, c.Propagates := by
  rw [List.forall_mem_map]
  intro c _
  cases c <;> trivial

omit [Output τ] in
/-- A call that succeeds where its failure would be passed on also succeeds where it is ignored. -/
theorem run_of_propagating {c : ChunkCall α} (h : c.propagating.run emit s = .ok () t) :
    c.run emit s = .ok () t := by
  cases c with
  | attempt c =>
    show EStateM.Result.ok () (final (emit c s)) = _
    rw [show emit c s = .ok () t from h, final_ok]
  | chunk | fail => exact h

/-- A string in which no call fails is written whether or not a failure would be passed on. -/
theorem emitStream_of_propagating
    (h : Program.emitStream m emit (calls.map propagating) s = .ok () t) :
    Program.emitStream m emit calls s = .ok () t := by
  obtain ⟨_, u, hopen, hrest⟩ := bind_eq_ok.mp h
  obtain ⟨_, v, hcalls, hbreak⟩ := bind_eq_ok.mp hrest
  refine bind_eq_ok.mpr ⟨(), u, hopen, bind_eq_ok.mpr ⟨(), v, ?_, hbreak⟩⟩
  clear h hopen hrest
  induction calls generalizing u with
  | nil => exact hcalls
  | cons c cs ih =>
    obtain ⟨_, w, hcall, hrest⟩ := bind_eq_ok.mp hcalls
    exact bind_eq_ok.mpr ⟨(), w, run_of_propagating hcall, ih w hrest⟩

end ChunkCall

namespace Program

mutual

def propagating : Program → Program
  | container kind count calls => container kind count (propagatingAll calls)
  | byteCalls calls => byteCalls (calls.map ChunkCall.propagating)
  | textCalls calls => textCalls (calls.map ChunkCall.propagating)
  | attempt call => propagating call
  | p => p

def propagatingAll : List Program → List Program
  | [] => []
  | call :: calls => propagating call :: propagatingAll calls

end

theorem propagatingAll_eq (calls : List Program) :
    propagatingAll calls = calls.map propagating := by
  induction calls with
  | nil => rfl
  | cons c cs ih => rw [propagatingAll, ih, List.map_cons]

/-- What holds of the calls in a program, the ignored ones apart, carries over to those that are
left when failures are passed on. -/
theorem throughout_propagating {P Q : Program → Prop}
    (h : ∀ p, (∀ call, p ≠ attempt call) → P p → Q p.propagating) {p : Program}
    (hp : p.Throughout P) : p.propagating.Throughout Q := by
  induction p with
  | container kind count calls ih =>
    rw [throughout_container] at hp
    have hself := h (container kind count calls) nofun hp.1
    rw [propagating, propagatingAll_eq] at hself ⊢
    rw [throughout_container, List.forall_mem_map]
    exact ⟨hself, fun c hc => ih c hc (hp.2 c hc)⟩
  | attempt call ih => exact ih (throughout_attempt.mp hp).2
  | _ => exact (throughout_of_parts rfl).mpr (h _ nofun ((throughout_of_parts rfl).mp hp))

theorem propagates_propagating (p : Program) : p.propagating.Throughout Propagates := by
  refine throughout_propagating (P := fun _ => True) (fun p hp _ => ?_) fun _ _ => trivial
  cases p with
  | attempt call => exact absurd rfl (hp call)
  | byteCalls calls | textCalls calls => exact ChunkCall.propagates_propagating calls
  | _ => trivial

theorem places_propagating (p : Program) : p.propagating.places = p.places := by
  induction p with
  | attempt call ih => exact ih
  | _ => rfl

theorem whole_propagating {p : Program} (h : p.Throughout Whole) :
    p.propagating.Throughout Whole := by
  refine throughout_propagating (fun p hp hself => ?_) h
  cases p with
  | attempt call => exact absurd rfl (hp call)
  | _ => exact hself

theorem even_propagating {p : Program} (h : p.Throughout Even) :
    p.propagating.Throughout Even := by
  refine throughout_propagating (fun p hp hself => ?_) h
  cases p with
  | container kind count calls =>
    have hplaces : (calls.map propagating).map places = calls.map places := by
      rw [List.map_map]
      exact List.map_congr_left fun c _ => places_propagating c
    rw [propagating, propagatingAll_eq]
    cases kind with
    | array => trivial
    | map =>
      cases count with
      | none =>
        rw [Even, hplaces]
        exact hself
      | some n => trivial
  | attempt call => exact absurd rfl (hp call)
  | _ => exact hself

section Counts

open Recording

variable {σ τ : Type} [Input σ] [Output τ] {options : Options} {declared : Option Nat}
  {taken made : Nat} {s t : σ × τ}

/-- Calls one after another succeed if they do with their failures passed on. -/
theorem runAll_of_propagating {calls : List Program}
    (ih : ∀ c ∈ calls, ∀ {declared : Option Nat} {taken : Nat} {s t : σ × τ},
      run options declared taken c.propagating s = .ok () t →
        run options declared taken c s = .ok () t)
    (h : runAll options declared taken (propagatingAll calls) s = .ok made t) :
    runAll options declared taken calls s = .ok made t := by
  induction calls generalizing taken s with
  | nil => exact h
  | cons c cs ihcs =>
    rw [List.forall_mem_cons] at ih
    obtain ⟨_, u, hfirst, hrest⟩ := bind_eq_ok.mp h
    rw [places_propagating] at hrest
    exact bind_eq_ok.mpr ⟨(), u, ih.1 hfirst, ihcs ih.2 hrest⟩

/-- Where no call fails there is no failure to pass on. -/
theorem run_of_propagating {p : Program}
    (h : run options declared taken p.propagating s = .ok () t) :
    run options declared taken p s = .ok () t := by
  induction p generalizing declared taken s t with
  | container kind count calls ih =>
    obtain ⟨_, u, hplace, hrest⟩ := bind_eq_ok.mp h
    obtain ⟨inner, v, hopen, hrest⟩ := bind_eq_ok.mp hrest
    obtain ⟨made, w, hcalls, hclose⟩ := bind_eq_ok.mp hrest
    refine bind_eq_ok.mpr ⟨(), u, hplace, bind_eq_ok.mpr ⟨inner, v, hopen,
      bind_eq_ok.mpr ⟨made, w, ?_, hclose⟩⟩⟩
    exact runAll_of_propagating (fun c hc => ih c hc) hcalls
  | attempt call ih =>
    show EStateM.Result.ok () (final (run options declared taken call s)) = _
    rw [ih h]
    rfl
  | byteCalls calls | textCalls calls =>
    obtain ⟨_, u, hplace, hstream⟩ := bind_eq_ok.mp h
    obtain ⟨hemit, hinput⟩ := onSecond_eq_ok.mp hstream
    exact bind_eq_ok.mpr ⟨(), u, hplace,
      onSecond_eq_ok.mpr ⟨ChunkCall.emitStream_of_propagating hemit, hinput⟩⟩
  | _ => exact h

def opening (declared : Option Nat) (taken : Nat) (kind : Container) (count : Option UInt64) :
    EStateM Error (σ × τ) (Option Nat) := do
  takePlace declared taken
  onSecond (openContainer kind count)

theorem run_container (options : Options) (declared : Option Nat) (taken : Nat) (kind : Container)
    (count : Option UInt64) (calls : List Program) :
    (run options declared taken (container kind count calls) : EStateM Error (σ × τ) Unit) = (do
      let inner ← opening declared taken kind count
      let made ← runAll options inner 0 calls
      onSecond (endContainer inner made)) := by
  rw [run, opening, bind_assoc]

omit [Input σ] in
theorem opening_ok {inner : Option Nat} {kind : Container} {count : Option UInt64}
    (h : opening declared taken kind count s = .ok inner t) : inner = declares kind count := by
  obtain ⟨_, u, -, hopen⟩ := bind_eq_ok.mp h
  exact ((emits_openContainer kind count).onSecond.ok hopen).2.1

variable [Recording τ] {kind : Container} {count : UInt64} {calls : List Program}

omit [Recording τ] in
/-- A container with a count succeeds only if its calls take all the places it declares. -/
theorem places_of_container (h : run options declared taken (container kind (some count) calls) s =
    .ok () t) : (calls.map places).sum = count.toNat * kind.slots := by
  rw [run_container] at h
  obtain ⟨inner, u, hopen, hrest⟩ := bind_eq_ok.mp h
  obtain ⟨made, v, hcalls, hclose⟩ := bind_eq_ok.mp hrest
  obtain rfl := opening_ok hopen
  have hmade : made = count.toNat * kind.slots :=
    ((emits_endContainer kind (some count) made).onSecond.ok hclose).1 _ rfl
  rw [← hmade, runAll_made hcalls, Nat.zero_add]

omit [Recording τ] in
/-- If its calls take another number of places a container with a count fails at its end. -/
theorem container_miscounted {inner : Option Nat} {u v : σ × τ}
    (hopen : opening declared taken kind (some count) s = .ok inner u)
    (hcalls : runAll options inner 0 calls u = .ok made v)
    (hn : (calls.map places).sum ≠ count.toNat * kind.slots) :
    run options declared taken (container kind (some count) calls) s =
      .error .itemValueOutOfRange v := by
  obtain rfl := opening_ok hopen
  have hmade : made ≠ count.toNat * kind.slots := by
    rwa [runAll_made hcalls, Nat.zero_add]
  have hclose : onSecond (endContainer (declares kind (some count)) made) v =
      .error .itemValueOutOfRange v := by
    show onSecond (failIf (made ≠ count.toNat * kind.slots) Error.itemValueOutOfRange) v = _
    rw [failIf, if_pos hmade]
    rfl
  rw [run_container, bind_apply, hopen]
  dsimp only
  rw [bind_apply, hcalls]
  exact hclose

/-- If every failure is passed on, a container that succeeds holds as many items as it declares. -/
theorem items_of_container (hw : (container kind (some count) calls).Throughout Whole)
    (heven : (container kind (some count) calls).Throughout Even)
    (h : run options declared taken (container kind (some count) calls).propagating s = .ok () t)
    (hsize : (written t.2).length < 2 ^ 64) :
    ∃ items : List Bytes, items.length = count.toNat * kind.slots ∧ (∀ i ∈ items, AnyItem i) ∧
      written t.2 = written s.2 ++ (Head.encode kind.major count ++ items.flatten) ∧
      AnyItem (Head.encode kind.major count ++ items.flatten) := by
  have hpropagates := propagates_propagating (container kind (some count) calls)
  replace hw := whole_propagating hw
  replace heven := even_propagating heven
  rw [propagating, throughout_container] at hpropagates hw heven
  obtain ⟨items, hwritten, hitems, hcount⟩ := pieces_of_container
    (fun c hc => makes_of_run options (hw.2 c hc) (hpropagates.2 c hc)) h hsize
  have hall := anyItem_of_mem hitems heven.2
  have hitem := anyItem_container hall hcount nofun
  rw [trail, List.append_nil] at hwritten hitem
  exact ⟨items, hcount _ rfl, hall, hwritten, hitem⟩

/-- A container that declares its count has had that many calls when it succeeds, and is refused
when its calls end with another number of them. If none of its calls fails, and none inside them,
it holds exactly that many items and is one itself. -/
theorem container_counts (options : Options) (declared : Option Nat) (taken : Nat)
    (kind : Container) (count : UInt64) (calls : List Program) (s : σ × τ) :
    (∀ t, run options declared taken (container kind (some count) calls) s = .ok () t →
        (calls.map places).sum = count.toNat * kind.slots) ∧
      (∀ inner u made v, opening declared taken kind (some count) s = .ok inner u →
        runAll options inner 0 calls u = .ok made v →
        (calls.map places).sum ≠ count.toNat * kind.slots →
        run options declared taken (container kind (some count) calls) s =
          .error .itemValueOutOfRange v) ∧
      ∀ t, (container kind (some count) calls).Throughout Whole →
        (container kind (some count) calls).Throughout Even →
        run options declared taken (container kind (some count) calls).propagating s = .ok () t →
        (written t.2).length < 2 ^ 64 →
        run options declared taken (container kind (some count) calls) s = .ok () t ∧
          ∃ items : List Bytes, items.length = count.toNat * kind.slots ∧
            (∀ i ∈ items, AnyItem i) ∧
            written t.2 = written s.2 ++ (Head.encode kind.major count ++ items.flatten) ∧
            AnyItem (Head.encode kind.major count ++ items.flatten) := by
  refine ⟨fun t h => places_of_container h, ?_, ?_⟩
  · intro inner u made v hopen hcalls hn
    exact container_miscounted hopen hcalls hn
  · intro t hw heven h hsize
    exact ⟨run_of_propagating h, items_of_container hw heven h hsize⟩

end Counts

/-- Two calls in arrays of two and of three. One of them may fail and does not. -/
theorem container_counts_sample :
    ((container .array (some 2) [attempt zero, zero]).written? = some [0x82, 0x00, 0x00] ∧
      AnyItem [0x82, 0x00, 0x00]) ∧
    ∃ t, (container .array (some 3) [attempt zero, zero]).emit {}
      (MemoryInput.ofBytes [], GrowingOutput.ofCapacity 0) = .error .itemValueOutOfRange t := by
  constructor
  · obtain ⟨t, ht, hbytes⟩ : ∃ t, (container .array (some 2) [attempt zero, zero]).propagating.emit
        {} (MemoryInput.ofBytes [], GrowingOutput.ofCapacity 0) = .ok () t ∧
          t.2.toBytes = [0x82, 0x00, 0x00] := ⟨_, rfl, rfl⟩
    have hcalls {P : Program → Prop} (hzero : P zero) (hattempt : P (attempt zero)) :
        ∀ c ∈ [attempt zero, zero], c.Throughout P := by
      have h := (throughout_of_parts (p := zero) rfl).mpr hzero
      simp [throughout_attempt, h, hattempt]
    have hwhole : (container .array (some 2) [attempt zero, zero]).Throughout Whole :=
      throughout_container.mpr ⟨trivial, hcalls (.plain rfl) trivial⟩
    have heven : (container .array (some 2) [attempt zero, zero]).Throughout Even :=
      throughout_container.mpr ⟨trivial, hcalls trivial trivial⟩
    have hsize : (Recording.written t.2).length < 2 ^ 64 :=
      (congrArg List.length hbytes).trans_lt (by decide)
    obtain ⟨-, -, hitems⟩ := container_counts {} none 0 .array 2 [attempt zero, zero]
      (MemoryInput.ofBytes [], GrowingOutput.ofCapacity 0)
    obtain ⟨hrun, items, -, -, hwritten, hitem⟩ := hitems t hwhole heven ht hsize
    have hbs := hwritten.symm.trans hbytes
    refine ⟨?_, hbs ▸ hitem⟩
    rw [written?, emit, hrun]
    exact congrArg some hbytes
  · obtain ⟨-, hmiscounted, -⟩ := container_counts {} none 0 .array 3 [attempt zero, zero]
      (MemoryInput.ofBytes [], GrowingOutput.ofCapacity 0)
    exact ⟨_, hmiscounted _ _ _ _ rfl rfl (by decide)⟩

/-- The failure of the only call is ignored, and the head stands alone. -/
theorem container_ignored_failure :
    (container .array (some 1) [attempt (leaf (.value (.simple 24)))]).written? = some [0x81] ∧
      itemLength {} [0x81] = .error .missingData :=
  ⟨rfl, rfl⟩

end Program

end CborCodec
