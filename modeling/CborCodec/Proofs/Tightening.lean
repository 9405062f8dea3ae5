import CborCodec.Proofs.Contents
import CborCodec.Proofs.Simulation
import CborCodec.Sequence
/-!
The modes as a chain. Under a stricter mode every reader goes the way that it goes under a looser
one, head by head, up to the first head whose encoding the stricter mode refuses; so whatever it
reads is the same, and it has no failures of its own but the two refusals.
-/

namespace CborCodec

/-- The place of a mode in the chain. Of two modes the later lets no more pass. -/
def Mode.strictness : Mode → Nat
  | .lenient => 0
  | .canonical => 1
  | .strict => 2

def Error.IsRefusal (e : Error) : Prop :=
  e = .oversizedAdditionalInformationCoding ∨ e = .indefiniteItem

def Options.under (options : Options) (mode : Mode) : Options :=
  { options with mode := mode }

namespace Head

/-- A mode lets a head pass, or it refuses how the head is encoded. -/
theorem check_cases (head : Head) (mode : Mode) :
    head.check mode = .ok () ∨ ∃ e, head.check mode = .error e ∧ e.IsRefusal := by
  unfold check
  split
  · exact Or.inl rfl
  · split
    · split
      · exact Or.inl rfl
      · exact Or.inr ⟨_, rfl, Or.inr rfl⟩
    · split
      · exact Or.inl rfl
      · exact Or.inr ⟨_, rfl, Or.inl rfl⟩

/-- What a mode lets pass, every looser one does. -/
theorem check_of_strictness {head : Head} {m m' : Mode} (hm : m.strictness ≤ m'.strictness)
    (h : head.check m' = .ok ()) : head.check m = .ok () := by
  cases m with
  | lenient => rfl
  | strict =>
    cases m' with
    | strict => exact h
    | lenient | canonical => exact absurd hm (by decide)
  | canonical =>
    cases m' with
    | lenient => exact absurd hm (by decide)
    | canonical => exact h
    | strict =>
      simp only [check] at h ⊢
      by_cases hi : head.indefinite = true
      · rw [if_pos hi] at h ⊢
        exact h
      · rw [if_neg hi] at h ⊢
        by_cases hminimal : head.isMinimal = true
        · simp [hminimal]
        · simp [hminimal] at h

/-- A stricter mode judges a head as a looser one does, or refuses it. -/
theorem check_tightens (head : Head) {m m' : Mode} (hm : m.strictness ≤ m'.strictness) :
    head.check m' = head.check m ∨ ∃ e, head.check m' = .error e ∧ e.IsRefusal := by
  rcases head.check_cases m' with hpass | hrefused
  · have hlooser := check_of_strictness hm hpass
    exact Or.inl (hpass.trans hlooser.symm)
  · exact Or.inr hrefused

end Head

section Calculus

variable {σ α β : Type}

/-- The second action goes the way of the first to its end, or refuses something on it. -/
def Tightens (x y : EStateM Error σ α) : Prop :=
  ∀ s, y s = x s ∨ ∃ e t, y s = .error e t ∧ e.IsRefusal

namespace Tightens

variable {x y : EStateM Error σ α} {f g : α → EStateM Error σ β}

theorem refl (x : EStateM Error σ α) : Tightens x x :=
  fun _ => Or.inl rfl

theorem known {e e' : Except Error α} (h : e' = e ∨ ∃ r, e' = .error r ∧ r.IsRefusal) :
    Tightens (σ := σ) (known e) (known e') := by
  intro s
  rcases h with rfl | ⟨r, rfl, hr⟩
  · exact Or.inl rfl
  · exact Or.inr ⟨r, s, rfl, hr⟩

/-- From the same state on the two actions end alike, or the second one has refused. -/
theorem bind_at {s : σ} (hx : y s = x s ∨ ∃ e t, y s = .error e t ∧ e.IsRefusal)
    (hf : ∀ a t, x s = .ok a t → g a t = f a t ∨ ∃ e u, g a t = .error e u ∧ e.IsRefusal) :
    (y >>= g) s = (x >>= f) s ∨ ∃ e t, (y >>= g) s = .error e t ∧ e.IsRefusal := by
  rw [bind_apply, bind_apply]
  rcases hx with hsame | ⟨e, t, hy, he⟩
  · rw [hsame]
    cases hrun : x s with
    | ok a t => exact hf a t hrun
    | error e t => exact Or.inl rfl
  · rw [hy]
    exact Or.inr ⟨e, t, rfl, he⟩

theorem bind (hx : Tightens x y) (hf : ∀ a, Tightens (f a) (g a)) :
    Tightens (x >>= f) (y >>= g) :=
  fun s => bind_at (hx s) fun a t _ => hf a t

theorem seq {x' y' : EStateM Error σ β} (hx : Tightens x y) (hx' : Tightens x' y') :
    Tightens (x >>= fun _ => x') (y >>= fun _ => y') :=
  hx.bind fun _ => hx'

theorem ite {c : Prop} [Decidable c] {x' y' : EStateM Error σ α} (h : c → Tightens x y)
    (h' : ¬c → Tightens x' y') : Tightens (if c then x else x') (if c then y else y') := by
  split
  · exact h ‹_›
  · exact h' ‹_›

end Tightens

end Calculus

section Readers

variable {σ α β κ : Type} [Input σ] {m m' : Mode} (hm : m.strictness ≤ m'.strictness)

include hm in
theorem tightens_peekHead : Tightens (peekHead m : EStateM Error σ Head) (peekHead m') := by
  refine .bind (.refl peekAnyHead) fun head => ?_
  have hcheck := head.check_tightens hm
  exact .seq (.known hcheck) (.refl _)

include hm in
theorem tightens_readHead : Tightens (readHead m : EStateM Error σ Head) (readHead m') :=
  (tightens_peekHead hm).bind fun _ => .refl _

section Strings

variable (options : Options)

include hm in
theorem tightens_readChunkHead (major : Major) :
    Tightens (readChunkHead (options.under m) major : EStateM Error σ (Option Nat))
      (readChunkHead (options.under m') major) :=
  (tightens_readHead hm).bind fun _ => .refl _

include hm in
theorem tightens_readChunks (major : Major) (before : Array UInt8) :
    Tightens (readChunks (options.under m) major before : EStateM Error σ (Array UInt8))
      (readChunks (options.under m') major before) := by
  intro s
  induction hn : (stream s).length using Nat.strong_induction_on generalizing before s with
  | _ n ih =>
    rw [readChunks_eq, readChunks_eq]
    apply Tightens.bind_at (tightens_readChunkHead hm options major s)
    intro chunk t ht
    cases chunk with
    | none => exact Or.inl rfl
    | some length =>
      apply Tightens.bind_at (Or.inl rfl)
      intro after u hu
      have hhead := (Consumes.readChunkHead _ major).lt_of_ok ht
      have hchunk := (Consumes.readChunk _ major length before).le_of_ok hu
      exact ih _ (by omega) after u rfl

include hm in
theorem tightens_readPayload (head : Head) :
    Tightens (readPayload (options.under m) head : EStateM Error σ Bytes)
      (readPayload (options.under m') head) := by
  refine .bind ?_ fun _ => .refl _
  exact .ite (fun _ => tightens_readChunks hm options _ _) fun _ => .refl _

include hm in
theorem tightens_readString (major : Major) :
    Tightens (readString (options.under m) major : EStateM Error σ Bytes)
      (readString (options.under m') major) :=
  (tightens_readHead hm).bind fun head => .seq (.refl _) (tightens_readPayload hm options head)

end Strings

section Containers

variable (options : Options) (head : Head) (init : β)

section Loops

variable {item item' : β → EStateM Error σ β} (h : ∀ b, Tightens (item b) (item' b))
include h

omit [Input σ] in
theorem tightens_repeatItem (n : Nat) (b : β) :
    Tightens (repeatItem item n b) (repeatItem item' n b) := by
  induction n generalizing b with
  | zero => exact .refl _
  | succ n ih => exact (h b).bind ih

theorem tightens_untilBreak (allowance count : Nat) (b : β) :
    Tightens (untilBreak item allowance count b) (untilBreak item' allowance count b) := by
  induction allowance generalizing count b with
  | zero => exact .refl _
  | succ allowance ih =>
    refine .bind (.refl atBreak) fun _ => .ite (fun _ => .refl _) fun _ => ?_
    exact (h b).bind fun _ => ih _ _

theorem tightens_arrayItems :
    Tightens (arrayItems (options.under m) head item init)
      (arrayItems (options.under m') head item' init) := by
  refine .ite (fun _ => tightens_untilBreak h _ _ _) fun _ => ?_
  refine .seq (.refl _) (.seq (.refl (checkItems options _)) ?_)
  exact (tightens_repeatItem h _ _).bind fun _ => .refl _

end Loops

theorem tightens_mapItems {key key' : EStateM Error σ κ}
    {value value' : κ → β → EStateM Error σ β} (hk : Tightens key key')
    (hv : ∀ k b, Tightens (value k b) (value' k b)) :
    Tightens (mapItems (options.under m) head key value init)
      (mapItems (options.under m') head key' value' init) := by
  have hpair : ∀ b, Tightens (do value (← key) b) (do value' (← key') b) :=
    fun b => hk.bind fun k => hv k b
  have howed : ∀ b, Tightens (do owedValue value (← key) b) (do owedValue value' (← key') b) :=
    fun b => hk.bind fun k => .bind (.refl atBreak) fun _ => .seq (.refl _) (hv k b)
  refine .ite (fun _ => tightens_untilBreak howed _ _ _) fun _ => ?_
  refine .seq (.refl _) (.seq (.refl (checkItems options _)) ?_)
  exact (tightens_repeatItem hpair _ _).bind fun _ => .refl _

end Containers

section Values

variable (options : Options)

include hm in
/-- The contents of an item are read in the same way or refused, if the items inside are. -/
theorem tightens_decodeContents {inner inner' : Option (EStateM Error σ Value)}
    (h : Option.Rel Tightens inner inner') (head : Head) :
    Tightens (Value.decodeContents (options.under m) inner head)
      (Value.decodeContents (options.under m') inner' head) := by
  have hpayload := tightens_readPayload (σ := σ) hm options head
  cases hmajor : head.major <;> simp only [Value.decodeContents, hmajor]
  case unsigned | negative | special => exact .refl _
  case bytes | text => exact hpayload.bind fun _ => .refl _
  all_goals
    cases h with
    | none => exact .refl _
    | some h => ?_
    simp only [Value.descend, pure_bind]
  case array =>
    exact (tightens_arrayItems options head [] fun _ => h.bind fun _ => .refl _).bind
      fun _ => .refl _
  case map =>
    exact (tightens_mapItems options head [] h fun _ _ => h.bind fun _ => .refl _).bind
      fun _ => .refl _
  case tag => exact h.bind fun _ => .refl _

include hm in
/-- By induction on the depth, a stricter mode decodes the same or refuses. -/
theorem tightens_decodeWithin (depth : Nat) :
    Tightens (Value.decodeWithin (options.under m) depth : EStateM Error σ Value)
      (Value.decodeWithin (options.under m') depth) := by
  induction depth with
  | zero =>
    exact (tightens_readHead hm).bind fun head => tightens_decodeContents hm options .none head
  | succ depth ih =>
    exact (tightens_readHead hm).bind fun head =>
      tightens_decodeContents hm options (.some ih) head

include hm in
/-- Whatever the type, a stricter mode decodes the same or refuses. -/
theorem Target.tightens_decode (t : Target) :
    Tightens (t.decode (options.under m) : EStateM Error σ t.Carrier)
      (t.decode (options.under m')) := by
  have hdouble : Tightens (decodeDouble (options.under m) : EStateM Error σ Double)
      (decodeDouble (options.under m')) :=
    (tightens_readHead hm).bind fun _ => .refl _
  induction t with
  | integer t => exact (tightens_readHead hm).bind fun _ => .refl _
  | bool => exact (tightens_readHead hm).bind fun _ => .refl _
  | single => exact hdouble.bind fun _ => .refl _
  | double => exact hdouble
  | text => exact (tightens_readString hm options _).bind fun _ => .refl _
  | bytes => exact tightens_readString hm options _
  | value => exact tightens_decodeWithin hm options _
  | option t ih =>
    -- The head is checked by the peek, and once more where the item is read after all.
    refine (tightens_peekHead hm).bind fun head => .ite (fun _ => .refl _) fun _ => ?_
    exact ih.bind fun _ => .refl _

end Values

end Readers

section Walks

variable {σ τ : Type} [Input σ] [Output τ] {m m' : Mode} (hm : m.strictness ≤ m'.strictness)
  (options : Options)
include hm

theorem tightens_takeHead : Tightens (takeHead m : EStateM Error (σ × τ) Head) (takeHead m') :=
  (tightens_peekHead hm).bind fun _ => .refl _

theorem tightens_takeFrame :
    Tightens (takeFrame (options.under m) : EStateM Error (σ × τ) Frame)
      (takeFrame (options.under m')) :=
  (tightens_takeHead hm).bind fun _ => .refl _

theorem tightens_takeChunkHead (major : Major) :
    Tightens (takeChunkHead (options.under m) major : EStateM Error (σ × τ) (Option Nat))
      (takeChunkHead (options.under m') major) :=
  (tightens_takeHead hm).bind fun _ => .refl _

theorem tightens_transferChunks (major : Major) (total : Nat) :
    Tightens (transferChunks (options.under m) major total : EStateM Error (σ × τ) Unit)
      (transferChunks (options.under m') major total) := by
  intro s
  induction hn : (stream s).length using Nat.strong_induction_on generalizing total s with
  | _ n ih =>
    rw [transferChunks_eq, transferChunks_eq]
    apply Tightens.bind_at (tightens_takeChunkHead hm options major s)
    intro chunk t ht
    cases chunk with
    | none => exact Or.inl rfl
    | some length =>
      apply Tightens.bind_at (Or.inl rfl)
      intro _ u hu
      have hhead := (Consumes.takeChunkHead _ major).lt_of_ok ht
      have hchunk := (Consumes.transferChunk _ length total).le_of_ok hu
      exact ih _ (by omega) _ u rfl

theorem tightens_openElement (frame : Frame) (below : List Frame) :
    Tightens (openElement (options.under m) frame below : EStateM Error (σ × τ) (List Frame))
      (openElement (options.under m') frame below) :=
  (tightens_takeFrame hm options).bind fun _ => .refl _

theorem tightens_stepContainer (frame : Frame) (below : List Frame) :
    Tightens (stepContainer (options.under m) frame below : EStateM Error (σ × τ) (List Frame))
      (stepContainer (options.under m') frame below) := by
  have hopen := tightens_openElement (σ := σ) (τ := τ) hm options frame below
  -- The break that ends a container is told from its byte, which no mode looks at.
  refine .ite (fun _ => .bind (.refl atBreak) fun _ => ?_) fun _ => .ite (fun _ => .refl _) ?_
  · exact .ite (fun _ => .refl _) fun _ => hopen
  · exact fun _ => hopen

/-- A step in a stricter mode is the same or refused. -/
theorem tightens_step (frame : Frame) (below : List Frame) :
    Tightens (step (options.under m) frame below : EStateM Error (σ × τ) (List Frame))
      (step (options.under m') frame below) := by
  cases hmajor : frame.major <;> simp only [step, hmajor]
  case unsigned | negative | special => exact .refl _
  case bytes | text =>
    refine .seq ?_ (.refl _)
    exact .ite (fun _ => tightens_transferChunks hm options _ _) fun _ => .refl _
  case array | map => exact tightens_stepContainer hm options frame below
  case tag => exact (tightens_takeFrame hm options).bind fun _ => .refl _

/-- By induction on the potential, a walk in a stricter mode is the same or refused. -/
theorem tightens_resume (frames : List Frame) :
    Tightens (resume (options.under m) frames : EStateM Error (σ × τ) Unit)
      (resume (options.under m') frames) := by
  intro s
  -- Each step of the looser walk uses up some of its potential.
  induction hn : potential frames s using Nat.strong_induction_on generalizing frames s with
  | _ n ih =>
    cases frames with
    | nil => exact Or.inl (by rw [resume_nil, resume_nil])
    | cons frame below =>
      rw [resume_cons, resume_cons]
      apply Tightens.bind_at (tightens_step hm options frame below s)
      intro frames t ht
      have hlt := potential_step ht
      exact ih _ (by omega) frames t rfl

theorem tightens_copyItem :
    Tightens (copyItem (options.under m) : EStateM Error (σ × τ) Unit)
      (copyItem (options.under m')) :=
  (tightens_takeFrame hm options).bind fun _ => tightens_resume hm options _

theorem tightens_skipItem :
    Tightens (skipItem (options.under m) : EStateM Error σ Unit) (skipItem (options.under m')) := by
  intro s
  have hcopy := tightens_copyItem (σ := σ) hm options (s, ({} : Nowhere))
  unfold skipItem
  rcases hcopy with hsame | ⟨e, t, hrefused, he⟩
  · rw [hsame]
    exact Or.inl rfl
  · rw [hrefused]
    exact Or.inr ⟨e, t.1, rfl, he⟩

end Walks

section Chain

/-- The verdicts of a reader under the three modes. What a mode reads, every looser one reads, and
what the lenient one reads the others read too or refuse. -/
structure Chained {α : Type} (read : Mode → Except Error α) : Prop where
  canonical_of_strict : ∀ r, read .strict = .ok r → read .canonical = .ok r
  lenient_of_canonical : ∀ r, read .canonical = .ok r → read .lenient = .ok r
  of_lenient : ∀ r, read .lenient = .ok r → ∀ mode,
    read mode = .ok r ∨ ∃ e, read mode = .error e ∧ e.IsRefusal

variable {α : Type}

/-- Readers that differ by refusals only form a chain. -/
theorem Chained.of_tightens {read : Mode → Except Error α}
    (h : ∀ m m' : Mode, m.strictness ≤ m'.strictness →
      read m' = read m ∨ ∃ e, read m' = .error e ∧ e.IsRefusal) : Chained read := by
  have hlooser : ∀ m m' : Mode, m.strictness ≤ m'.strictness →
      ∀ r, read m' = .ok r → read m = .ok r := by
    intro m m' hm r hr
    rcases h m m' hm with hsame | ⟨e, hrefused, -⟩
    · exact hsame.symm.trans hr
    · rw [hr] at hrefused
      cases hrefused
  refine ⟨hlooser _ _ (by decide), hlooser _ _ (by decide), ?_⟩
  intro r hr mode
  rcases h .lenient mode (Nat.zero_le _) with hsame | hrefused
  · exact Or.inl (hsame.trans hr)
  · exact Or.inr hrefused

theorem decodeBytes_tightens {x y : EStateM Error MemoryInput α} (h : Tightens x y)
    (data : Bytes) :
    decodeBytes y data = decodeBytes x data ∨
      ∃ e, decodeBytes y data = .error e ∧ e.IsRefusal := by
  unfold decodeBytes
  rcases h (MemoryInput.ofBytes data) with hsame | ⟨e, t, hrefused, he⟩
  · rw [hsame]
    exact Or.inl rfl
  · rw [hrefused]
    exact Or.inr ⟨e, rfl, he⟩

/-- A stricter mode measures the same or refuses. -/
theorem itemLength_tightens {m m' : Mode} (hm : m.strictness ≤ m'.strictness) (options : Options)
    (data : Bytes) :
    itemLength (options.under m') data = itemLength (options.under m) data ∨
      ∃ e, itemLength (options.under m') data = .error e ∧ e.IsRefusal := by
  unfold itemLength
  rcases tightens_skipItem hm options (MemoryInput.ofBytes data) with
    hsame | ⟨e, t, hrefused, he⟩
  · rw [hsame]
    exact Or.inl rfl
  · rw [hrefused]
    exact Or.inr ⟨e, rfl, he⟩

/-- Under any limits the modes are a chain, for the length of an item and for its decoding to
every type. -/
theorem modes_form_chain (options : Options) (data : Bytes) :
    Chained (fun mode => itemLength (options.under mode) data) ∧
      ∀ t : Target, Chained fun mode => decodeBytes (t.decode (options.under mode)) data := by
  constructor
  · apply Chained.of_tightens
    intro m m' hm
    exact itemLength_tightens hm options data
  · intro t
    apply Chained.of_tightens
    intro m m' hm
    exact decodeBytes_tightens (t.tightens_decode hm options) data

/-- A single that fits a half is refused by the last mode of the chain only. -/
example : ([.lenient, .canonical, .strict].map fun mode =>
    itemLength (Options.under {} mode) [0xFA, 0x3F, 0x80, 0, 0]) =
      [.ok 5, .ok 5, .error .oversizedAdditionalInformationCoding] := by
  decide +kernel

end Chain

end CborCodec
