import CborCodec.Proofs.Counting
/-!
What is written, and how it ends, is decided before any output is there. A walk has its input to go
by and a program the calls it is made of; so there is one list of writes that is made on every
output alike, as far as that one takes them.
-/

namespace CborCodec

inductive Write where
  | head (bs : Bytes) (short : bs.length ≤ pieceRoom)
  | payload (bs : Bytes)

namespace Write

variable {τ : Type} [Output τ]

def bytes : Write → Bytes
  | head bs _ => bs
  | payload bs => bs

def make : Write → EStateM Error τ Unit
  | head bs _ => Output.putHead bs
  | payload bs => Output.put bs

def makeAll : List Write → EStateM Error τ Unit
  | [] => pure ()
  | w :: ws => do
    w.make
    makeAll ws

theorem makeAll_singleton (w : Write) : (makeAll [w] : EStateM Error τ Unit) = w.make :=
  bind_pure_unit

theorem makeAll_append (ws vs : List Write) :
    (makeAll (ws ++ vs) : EStateM Error τ Unit) = makeAll ws >>= fun _ => makeAll vs := by
  induction ws with
  | nil => rw [List.nil_append, makeAll, pure_bind]
  | cons w ws ih => simp only [List.cons_append, makeAll, ih, bind_assoc]

end Write

open Write

def beside {ε σ τ α : Type} (r : EStateM.Result ε σ α) (o : τ) : EStateM.Result ε (σ × τ) α :=
  match r with
  | .ok a i => .ok a (i, o)
  | .error e i => .error e (i, o)

abbrev AnyAction (σ α : Type) := ∀ (τ : Type) [Output τ], EStateM Error (σ × τ) α

abbrev AnyWriter (α : Type) := ∀ (τ : Type) [Output τ], EStateM Error τ α

section Scripts

variable {σ α β : Type} {x : AnyAction σ α} {f : α → AnyAction σ β} {i j : σ}
  {ws : List Write} {r : EStateM.Result Error σ α}

/-- From this input the action makes the writes on every output and ends with the result. Where one
of the writes fails, the action fails with it. -/
structure Script (x : AnyAction σ α) (i : σ) (ws : List Write) (r : EStateM.Result Error σ α) :
    Prop where
  written : ∀ {τ : Type} [Output τ] {o o' : τ}, makeAll ws o = .ok () o' →
    x τ (i, o) = beside r o'
  refused : ∀ {τ : Type} [Output τ] {o o' : τ} {e : Error}, makeAll ws o = .error e o' →
    ∃ j, x τ (i, o) = .error e (j, o')

def Scripted (x : AnyAction σ α) (i : σ) : Prop := ∃ ws r, Script x i ws r

namespace Scripted

/-- Nothing is written. -/
theorem quiet (hx : ∀ (τ : Type) [Output τ] (o : τ), x τ (i, o) = beside r o) : Scripted x i := by
  refine ⟨[], r, ?_, ?_⟩
  · intro τ _ o o' hnone
    cases hnone
    exact hx τ o
  · intro τ _ o o' e hnone
    cases hnone

theorem congr {y : AnyAction σ α} (hy : Scripted y i)
    (hx : ∀ (τ : Type) [Output τ], x τ = y τ) : Scripted x i := by
  obtain ⟨ws, r, hws⟩ := hy
  refine ⟨ws, r, ?_, ?_⟩
  · intro τ _ o o' hmade
    rw [hx]
    exact hws.written hmade
  · intro τ _ o o' e hrefused
    rw [hx]
    exact hws.refused hrefused

theorem pure (a : α) : Scripted (fun _ _ => Pure.pure a) i :=
  quiet (r := .ok a i) fun _ _ _ => rfl

theorem throw (e : Error) : Scripted (α := α) (fun _ _ => MonadExcept.throw e) i :=
  quiet (r := .error e i) fun _ _ _ => rfl

theorem failIf (c : Prop) [Decidable c] (e : Error) :
    Scripted (fun _ _ => CborCodec.failIf c e) i := by
  unfold CborCodec.failIf
  split
  · exact throw e
  · exact pure ()

/-- A write is made, and what follows it is scripted. -/
theorem write {w : Write} {y : AnyAction σ α} (hy : Scripted y j)
    (hok : ∀ (τ : Type) [Output τ] (o o' : τ), w.make o = .ok () o' → x τ (i, o) = y τ (j, o'))
    (herror : ∀ (τ : Type) [Output τ] (o o' : τ) (e : Error), w.make o = .error e o' →
      ∃ t, x τ (i, o) = .error e (t, o')) : Scripted x i := by
  obtain ⟨ws, r, hws⟩ := hy
  refine ⟨w :: ws, r, ?_, ?_⟩
  · intro τ _ o o' hmade
    obtain ⟨_, u, hu, hrest⟩ := bind_eq_ok.mp hmade
    rw [hok τ o u hu]
    exact hws.written hrest
  · intro τ _ o o' e hrefused
    rw [makeAll, bind_apply] at hrefused
    cases hw : w.make o with
    | ok _ u =>
      rw [hw] at hrefused
      rw [hok τ o u hw]
      exact hws.refused hrefused
    | error e' u =>
      rw [hw] at hrefused
      cases hrefused
      exact herror τ o o' e hw

theorem makeAll_nowhere (ws : List Write) (k : Nowhere) : ∃ k', makeAll ws k = .ok () k' := by
  induction ws generalizing k with
  | nil => exact ⟨k, rfl⟩
  | cons w ws ih =>
    have hw : ∃ u, w.make k = .ok () u := by
      cases w with
      | head bs => exact Endless.putHead_ok bs k
      | payload bs => exact Endless.put_ok bs k
    obtain ⟨u, hu⟩ := hw
    obtain ⟨k', hk'⟩ := ih u
    exact ⟨k', bind_eq_ok.mpr ⟨(), u, hu, hk'⟩⟩

/-- What follows begins where the first action ends beside an output that keeps nothing. -/
theorem bind (hx : Scripted x i)
    (hf : ∀ a j, (∃ k k', x Nowhere (i, k) = .ok a (j, k')) → Scripted (f a) j) :
    Scripted (fun τ _ => x τ >>= fun a => f a τ) i := by
  obtain ⟨ws, r, hws⟩ := hx
  cases r with
  | error e j =>
    refine ⟨ws, .error e j, ?_, ?_⟩
    · intro τ _ o o' hmade
      rw [bind_apply, hws.written hmade]
      rfl
    · intro τ _ o o' e hrefused
      obtain ⟨t, ht⟩ := hws.refused hrefused
      exact ⟨t, by rw [bind_apply, ht]⟩
  | ok a j =>
    obtain ⟨k', hk'⟩ := makeAll_nowhere ws {}
    obtain ⟨vs, r', hvs⟩ := hf a j ⟨{}, k', hws.written hk'⟩
    refine ⟨ws ++ vs, r', ?_, ?_⟩
    · intro τ _ o o' hmade
      rw [makeAll_append] at hmade
      obtain ⟨_, u, hu, hrest⟩ := bind_eq_ok.mp hmade
      rw [bind_apply, hws.written hu]
      exact hvs.written hrest
    · intro τ _ o o' e hrefused
      rw [makeAll_append, bind_apply] at hrefused
      rw [bind_apply]
      cases hu : makeAll ws o with
      | ok _ u =>
        rw [hu] at hrefused
        rw [hws.written hu]
        exact hvs.refused hrefused
      | error e' u =>
        rw [hu] at hrefused
        cases hrefused
        obtain ⟨t, ht⟩ := hws.refused hu
        exact ⟨t, by rw [ht]⟩

theorem seq {y : AnyAction σ β} (hx : Scripted x i) (hy : ∀ j, Scripted y j) :
    Scripted (fun τ _ => x τ >>= fun _ => y τ) i :=
  hx.bind fun _ j _ => hy j

theorem ite {c : Prop} [Decidable c] {y : AnyAction σ α} (hx : c → Scripted x i)
    (hy : ¬c → Scripted y i) : Scripted (fun τ _ => if c then x τ else y τ) i := by
  split
  · next h => exact hx h
  · next h => exact hy h

end Scripted

end Scripts

section Walk

variable {σ : Type} [Input σ] {options : Options} {i : σ}

namespace Scripted

/-- A head is one write, chosen before the output is asked. -/
theorem takeHead (mode : Mode) (i : σ) : Scripted (fun _ _ => takeHead mode) i := by
  cases hp : peekHead mode i with
  | error e t => exact quiet (r := .error e t) fun _ _ o => takeHead_error hp o
  | ok h t =>
    obtain ⟨-, -, lead, rest, -, hs⟩ := peekHead_spelled hp
    have hlength := hs.length_le
    have hshort : ((window t).toList.take h.encodedLength).length ≤ pieceRoom := by
      rw [hs.length_eq] at hlength
      exact (List.length_take_le ..).trans (hlength.trans (by decide))
    apply write (w := .head _ hshort) (pure h)
    · intro τ _ o o' ho
      exact takeHead_ok hp ho
    · intro τ _ o o' e ho
      change Output.putHead ((window t).toList.take h.encodedLength) o = .error e o' at ho
      exact ⟨t, by simp only [takeHead_apply, hp, ho]⟩

theorem checkAvailable (major : Major) (count : Nat) (i : σ) :
    Scripted (fun _ _ => checkAvailable major count) i := by
  apply quiet (r := CborCodec.checkAvailable major count i)
  intro τ _ o
  have havailable : available (i, o) = available i := rfl
  rw [checkAvailable_apply, checkAvailable_apply, havailable]
  split <;> rfl

theorem tryClose (frame : Frame) (i : σ) : Scripted (fun _ _ => tryClose frame) i := by
  cases hb : atBreak i with
  | error e t => exact quiet (r := .error e t) fun _ _ o => tryClose_error hb o
  | ok ended t =>
    cases ended with
    | false => exact quiet (r := .ok false t) fun _ _ o => tryClose_false hb o
    | true =>
      by_cases howed : frame.owed = true
      · exact quiet (r := .error .itemTypeMismatch t) fun _ _ o => tryClose_owed hb howed o
      · apply write (w := .head [breakByte] (by decide)) (pure true)
        · intro τ _ o o' ho
          exact tryClose_ok hb howed ho
        · intro τ _ o o' e ho
          change Output.putHead [breakByte] o = .error e o' at ho
          exact ⟨t, by simp only [tryClose_apply, hb, if_neg howed, ho]⟩

/-- The writes of a payload are the windows in which the input shows it. -/
theorem transfer (n : Nat) (i : σ) : Scripted (fun _ _ => transfer n) i := by
  induction n using Nat.strong_induction_on generalizing i with
  | _ n ih =>
    by_cases hn : n = 0
    · rw [hn]
      exact quiet (r := .ok () i) fun _ _ o => transfer_zero (i, o)
    cases h : (Input.need 1 i : EStateM.Result Error σ Unit) with
    | error e t => exact quiet (r := .error e t) fun _ _ o => transfer_error hn h o
    | ok u t =>
      have hsize := size_of_need h
      apply write (w := .payload ((window t).toList.take (min (window t).size n)))
        (ih (n - min (window t).size n) (by omega) (Cursor.discard (min (window t).size n) t))
      · intro τ _ o o' ho
        exact transfer_turn hn h ho
      · intro τ _ o o' e ho
        change Output.put ((window t).toList.take (min (window t).size n)) o = .error e o' at ho
        exact ⟨t, by simp only [transfer_apply hn, h, ho]⟩

theorem takeFrame (options : Options) (i : σ) : Scripted (fun _ _ => takeFrame options) i := by
  apply (takeHead options.mode i).bind
  intro head j _
  apply seq
  · exact ite (fun _ => (checkAvailable _ _ j).seq fun _ => failIf _ _) fun _ => pure ()
  · intro _
    exact pure _

theorem takeChunkHead (options : Options) (major : Major) (i : σ) :
    Scripted (fun _ _ => takeChunkHead options major) i := by
  apply (takeHead options.mode i).bind
  intro head j _
  exact ite (fun _ => pure none) fun _ => (failIf _ _).seq fun _ => pure _

theorem transferChunk (options : Options) (length total : Nat) (i : σ) :
    Scripted (fun _ _ => transferChunk options length total) i := by
  apply seq
  · exact (checkAvailable _ _ i).seq fun _ => failIf _ _
  · exact transfer length

theorem transferChunks (options : Options) (major : Major) (total : Nat) (i : σ) :
    Scripted (fun _ _ => transferChunks options major total) i := by
  induction hn : (stream i).length using Nat.strong_induction_on generalizing total i with
  | _ n ih =>
    refine congr ?_ fun τ _ => transferChunks_eq options major total
    apply (takeChunkHead options major i).bind
    rintro chunk j ⟨k, k', hhead⟩
    have hlt := (Consumes.takeChunkHead options major).lt_of_ok hhead
    cases chunk with
    | none => exact pure ()
    | some length =>
      apply (transferChunk options length total j).bind
      rintro _ j' ⟨u, u', hchunk⟩
      have hle := (Consumes.transferChunk options length total).le_of_ok hchunk
      change (stream j).length < (stream i).length at hlt
      change (stream j').length + 0 ≤ (stream j).length at hle
      exact ih _ (by omega) _ j' rfl

theorem openElement (frame : Frame) (below : List Frame) (i : σ) :
    Scripted (fun _ _ => openElement options frame below) i :=
  (takeFrame options i).bind fun _ _ _ => pure _

theorem stepContainer (frame : Frame) (below : List Frame) (i : σ) :
    Scripted (fun _ _ => stepContainer options frame below) i := by
  simp only [stepContainer_eq]
  apply ite
  · intro _
    apply (tryClose frame i).bind
    intro closed j _
    exact ite (fun _ => pure below) fun _ => openElement frame below j
  · intro _
    exact ite (fun _ => pure below) fun _ => openElement frame below i

/-- The writes of a step do not depend on the output. -/
theorem step (frame : Frame) (below : List Frame) (i : σ) :
    Scripted (fun _ _ => step options frame below) i := by
  cases hm : frame.major <;> simp only [CborCodec.step, hm]
  case unsigned | negative => exact pure below
  case special => exact (failIf _ _).seq fun _ => pure below
  case bytes | text =>
    apply seq
    · exact ite (fun _ => transferChunks _ _ _ i) fun _ => transferChunk _ _ _ i
    · intro _
      exact pure below
  case array | map => exact stepContainer frame below i
  case tag => exact (takeFrame options i).bind fun _ _ _ => pure _

/-- By induction on the potential, the writes of a walk do not depend on the output. -/
theorem resume (frames : List Frame) (i : σ) : Scripted (fun _ _ => resume options frames) i := by
  -- Each step uses up some of the potential, which the output has no part in.
  induction hn : potential frames i using Nat.strong_induction_on generalizing frames i with
  | _ n ih =>
    cases frames with
    | nil =>
      simp only [resume_nil]
      exact pure ()
    | cons frame below =>
      simp only [resume_cons]
      apply (step frame below i).bind
      rintro frames j ⟨k, k', hstep⟩
      have hlt : potential frames j < potential (frame :: below) i := potential_step hstep
      exact ih _ (by omega) frames j rfl

theorem walkItem (options : Options) (below : List Frame) (i : σ) :
    Scripted (fun _ _ => walkItem options below) i :=
  (takeFrame options i).bind fun _ j _ => resume _ j

end Scripted

end Walk

section Writers

variable {α β : Type} {y : AnyWriter α} {g : α → AnyWriter β}

/-- The action makes the same writes on every output and ends in the same way. -/
def Uniform (y : AnyWriter α) : Prop :=
  ∃ (ws : List Write) (r : Except Error α), ∀ (τ : Type) [Output τ],
    y τ = (makeAll ws >>= fun _ => known r)

namespace Uniform

theorem known (r : Except Error α) : Uniform (fun _ _ => known r) :=
  ⟨[], r, fun _ _ => rfl⟩

theorem pure (a : α) : Uniform (fun _ _ => Pure.pure a) := known (.ok a)

theorem throw (e : Error) : Uniform (α := α) (fun _ _ => MonadExcept.throw e) := known (.error e)

theorem failIf (c : Prop) [Decidable c] (e : Error) :
    Uniform (fun _ _ => CborCodec.failIf c e) := by
  unfold CborCodec.failIf
  split
  · exact throw e
  · exact pure ()

theorem write (w : Write) : Uniform (fun _ _ => w.make) := by
  refine ⟨[w], .ok (), ?_⟩
  intro τ _
  rw [makeAll_singleton]
  exact bind_pure_unit.symm

theorem head {bs : Bytes} (h : bs.length ≤ pieceRoom) : Uniform (fun _ _ => Output.putHead bs) :=
  write (.head bs h)

theorem payload (bs : Bytes) : Uniform (fun _ _ => Output.put bs) := write (.payload bs)

theorem bind (hy : Uniform y) (hg : ∀ a, Uniform (g a)) :
    Uniform (fun τ _ => y τ >>= fun a => g a τ) := by
  obtain ⟨ws, r, hws⟩ := hy
  cases r with
  | error e =>
    refine ⟨ws, .error e, ?_⟩
    intro τ _
    simp only [hws, bind_assoc]
    rfl
  | ok a =>
    obtain ⟨vs, r', hvs⟩ := hg a
    refine ⟨ws ++ vs, r', ?_⟩
    intro τ _
    have hknown : (CborCodec.known (.ok a) >>= fun a => g a τ : EStateM Error τ β) = g a τ :=
      pure_bind a _
    simp only [hws, bind_assoc, hknown, hvs, makeAll_append]

theorem seq {z : AnyWriter β} (hy : Uniform y) (hz : Uniform z) :
    Uniform (fun τ _ => y τ >>= fun _ => z τ) :=
  hy.bind fun _ => hz

/-- Each of a list of actions follows the one before. -/
theorem each {ι : Type} {z : ι → AnyWriter Unit} {l : List ι} {k : List ι → AnyWriter Unit}
    (hnil : ∀ (τ : Type) [Output τ], k [] τ = Pure.pure ())
    (hcons : ∀ i is (τ : Type) [Output τ], k (i :: is) τ = z i τ >>= fun _ => k is τ)
    (h : ∀ i ∈ l, Uniform (z i)) : Uniform (k l) := by
  induction l with
  | nil =>
    obtain ⟨ws, r, hws⟩ := pure ()
    exact ⟨ws, r, fun τ _ => (hnil τ).trans (hws τ)⟩
  | cons i is ih =>
    rw [List.forall_mem_cons] at h
    obtain ⟨ws, r, hws⟩ := h.1.seq (ih h.2)
    exact ⟨ws, r, fun τ _ => (hcons i is τ).trans (hws τ)⟩

theorem short_spell (m : Major) (w : ArgumentWidth) (n : Nat) :
    (m.spell w n).length ≤ pieceRoom := by
  rw [m.length_spell]
  cases w <;> decide

theorem argument (m : Major) (n : UInt64) : Uniform (fun _ _ => emitArgument m n) := by
  apply head
  rw [encode_eq_spell]
  exact short_spell ..

theorem checked {bs : Except Error Bytes} (h : ∀ b, bs = .ok b → b.length ≤ pieceRoom) :
    Uniform (fun _ _ => emitChecked bs) := by
  cases bs with
  | error e => exact throw e
  | ok b => exact head (h b rfl)

theorem simple (n : UInt8) : Uniform (fun _ _ => emitChecked (Head.encodeSimple n)) := by
  apply checked
  intro b hb
  unfold Head.encodeSimple at hb
  repeat' split at hb
  all_goals cases hb
  all_goals exact Nat.le_of_ble_eq_true rfl

theorem indefinite (m : Major) : Uniform (fun _ _ => emitChecked (Head.encodeIndefinite m)) := by
  apply checked
  intro b hb
  unfold Head.encodeIndefinite at hb
  split at hb <;> cases hb
  all_goals decide

theorem place (declared : Option Nat) (taken : Nat) :
    Uniform (fun _ _ => takePlace declared taken) := by
  cases declared with
  | none => exact pure ()
  | some n => exact failIf _ _

theorem ending (declared : Option Nat) (taken : Nat) :
    Uniform (fun _ _ => endContainer declared taken) := by
  cases declared with
  | none => exact head (by decide)
  | some n => exact failIf _ _

theorem string (m : Major) (bs : Bytes) : Uniform (fun _ _ => emitString m bs) :=
  (argument m _).seq (payload bs)

theorem integer (t : IntType) (n : t.Carrier) : Uniform (fun _ _ => emitTyped t n) := by
  cases t <;> exact argument ..

theorem half (bits : UInt16) : Uniform (fun _ _ => Output.putHead (Head.encodeHalf bits)) := by
  apply head
  rw [encodeHalf_eq_spell]
  exact short_spell ..

theorem double (d : Double) : Uniform (fun _ _ => emitDouble d) := by
  apply head
  unfold Head.encodeFloat
  repeat' split
  · rw [encodeHalf_eq_spell]
    exact short_spell ..
  · rw [encodeHalf_eq_spell]
    exact short_spell ..
  · rw [encodeSingle_eq_spell]
    exact short_spell ..
  · rw [encodeDouble_eq_spell]
    exact short_spell ..

/-- Calls in a container are uniform if each of them is. -/
theorem calls {ι : Type} {z : ι → AnyWriter Unit} {l : List ι} (h : ∀ i ∈ l, Uniform (z i))
    (declared : Option Nat) (taken : Nat) :
    Uniform (fun τ _ => emitCalls declared taken (l.map fun i => z i τ)) := by
  induction l generalizing taken with
  | nil => exact pure taken
  | cons i is ih =>
    rw [List.forall_mem_cons] at h
    exact (place declared taken).seq (h.1.seq (ih h.2 _))

/-- A container is written alike everywhere if its elements are. -/
theorem container {ι : Type} {z : ι → AnyWriter Unit} {l : List ι} {kind : Container}
    {count : Nat} (h : ∀ i ∈ l, Uniform (z i)) :
    Uniform (fun τ _ => emitContainer kind count (l.map fun i => z i τ)) :=
  (argument _ _).seq ((calls h _ 0).bind fun _ => ending _ _)

/-- A value is written with the same writes on every output. -/
theorem value (v : Value) : Uniform (fun _ _ => v.emit) := by
  induction v with
  | unsigned n | negative n => exact argument _ n
  | bytes b => exact string _ b
  | text s => exact string _ _
  | array items ih =>
    simp only [Value.emit, Value.itemCalls_eq]
    exact container ih
  | map pairs ih =>
    simp only [Value.emit, Value.pairCalls_eq]
    exact container (Value.forall_mem_slots.mpr ih)
  | tag n item ih => exact (argument _ n).seq ih
  | false | true | null | undefined => exact simple _
  | simple n => exact simple n
  | float d => exact double d

mutual

theorem leaf : ∀ l : Leaf, Uniform (fun _ _ => l.emit)
  | .integer t n => integer t n
  | .double d => double d
  | .single _ => double _
  | .half bits => half bits
  | .bool _ => simple _
  | .text _ => string _ _
  | .bytes b => string _ b
  | .option inner => option inner
  | .value v => value v
  | .argument m n => argument m n
  | .simple n => simple n
  | .list elements => (argument _ _).seq ((list elements _ 0).bind fun _ => ending _ _)

theorem option : ∀ inner : Option Leaf, Uniform (fun _ _ => Leaf.emitOption inner)
  | none => simple _
  | some l => leaf l

theorem list : ∀ (elements : List Leaf) (declared : Option Nat) (taken : Nat),
    Uniform (fun _ _ => emitCalls declared taken (Leaf.elementCalls elements))
  | [], _, taken => pure taken
  | l :: ls, declared, taken => (place declared taken).seq ((leaf l).seq (list ls _ _))

end

theorem tags (tags : List TagNumber) : Uniform (fun _ _ => Program.emitTags tags) := by
  induction tags with
  | nil => exact pure ()
  | cons t ts ih =>
    cases h : t.toWord? with
    | none =>
      simp only [Program.emitTags, h]
      exact (throw _).seq ih
    | some n =>
      simp only [Program.emitTags, h]
      exact (argument _ n).seq ih

/-- A string of chunks is written alike everywhere, also if it fails half-way. -/
theorem stream {ι : Type} (m : Major) {z : ι → AnyWriter Unit} (hz : ∀ c, Uniform (z c))
    {calls : List (ChunkCall ι)} (h : ∀ c ∈ calls, c.Propagates) :
    Uniform (fun τ _ => Program.emitStream m (fun c => z c τ) calls) := by
  have hcall : ∀ c ∈ calls, Uniform (fun τ _ => c.run fun c => z c τ) := by
    intro c hc
    cases c with
    | chunk c => exact hz c
    | attempt c => exact absurd (h _ hc) id
    | fail => exact throw _
  apply (indefinite m).seq
  apply seq
  · exact each (k := fun cs τ _ => Program.emitChunks (fun c => z c τ) cs) (fun _ _ => rfl)
      (fun _ _ _ _ => rfl) hcall
  · exact head (by decide)

end Uniform

/-- What only writes is scripted, beside any input. -/
theorem Scripted.second {σ : Type} (hy : Uniform y) (i : σ) :
    Scripted (fun τ _ => onSecond (y τ)) i := by
  obtain ⟨ws, r, hws⟩ := hy
  refine ⟨ws, CborCodec.known r i, ?_, ?_⟩
  · intro τ _ o o' hmade
    rw [onSecond, hws, bind_apply, hmade]
    cases r <;> rfl
  · intro τ _ o o' e hrefused
    rw [onSecond, hws, bind_apply, hrefused]
    exact ⟨i, rfl⟩

end Writers

namespace Program

variable {σ : Type} [Input σ] {options : Options}

omit [Input σ] in
theorem scripted_takePlace (declared : Option Nat) (taken : Nat) (i : σ) :
    Scripted (fun _ _ => takePlace declared taken) i := by
  cases declared with
  | none => exact .pure ()
  | some n => exact .failIf _ _

theorem uniform_openContainer (kind : Container) (count : Option UInt64) :
    Uniform (fun _ _ => openContainer kind count) := by
  cases count with
  | none => exact (Uniform.indefinite _).seq (.pure _)
  | some n => exact (Uniform.argument _ n).seq ((Uniform.failIf _ _).seq (.pure _))

theorem scripted_runAll {calls : List Program} {declared : Option Nat} {taken : Nat} {i : σ}
    (h : ∀ c ∈ calls, ∀ declared taken, ∀ i : σ,
      Scripted (fun _ _ => run options declared taken c) i) :
    Scripted (fun _ _ => runAll options declared taken calls) i := by
  induction calls generalizing taken i with
  | nil => exact .pure taken
  | cons c cs ih =>
    rw [List.forall_mem_cons] at h
    exact (h.1 declared taken i).seq fun j => ih h.2

/-- Where every failure is passed on, what is written does not depend on what takes it. -/
theorem scripted_run {p : Program} (hp : p.Throughout Propagates) (declared : Option Nat)
    (taken : Nat) (i : σ) : Scripted (fun _ _ => run options declared taken p) i := by
  induction p generalizing declared taken i with
  | leaf l => exact (scripted_takePlace _ _ i).seq fun j => .second (.leaf l) j
  | raw bs => exact (scripted_takePlace _ _ i).seq fun j => .second (.payload bs) j
  | itemFrom => exact (scripted_takePlace _ _ i).seq fun j => .walkItem options [] j
  | tagged tags l =>
    apply (scripted_takePlace _ _ i).seq
    intro j
    exact (Scripted.second (.tags tags) j).seq fun j => .second (.leaf l) j
  | container kind count calls ih =>
    rw [throughout_container] at hp
    apply (scripted_takePlace _ _ i).seq
    intro j
    apply (Scripted.second (uniform_openContainer kind count) j).bind
    intro inner j _
    apply (scripted_runAll fun c hc => ih c hc (hp.2 c hc)).bind
    intro made j _
    exact .second (.ending inner made) j
  | byteCalls calls =>
    rw [throughout_of_parts rfl] at hp
    apply (scripted_takePlace _ _ i).seq
    intro j
    exact .second (.stream .bytes (fun c => .string _ c) hp) j
  | textCalls calls =>
    rw [throughout_of_parts rfl] at hp
    apply (scripted_takePlace _ _ i).seq
    intro j
    exact .second (.stream .text (fun c => .string _ _) hp) j
  | attempt call => exact absurd hp.self id
  | fail => exact .throw _

end Program

end CborCodec
