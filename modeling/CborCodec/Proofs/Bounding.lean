import CborCodec.Proofs.Agreement
import CborCodec.Transcriber
/-!
The work of a walk. A byte that is consumed is worth two turns of the loop and every open frame one,
so turns and open frames are bounded by the bytes that were really supplied, whatever counts are
declared. A count is taken from only while something is left of it, and it stays within a word if
the input reports no more than a word of bytes.
-/

namespace CborCodec

variable {σ τ : Type} [Input σ] [Output τ] {options : Options} {s t u : σ × τ} {n : Nat}
  {frame : Frame} {below frames : List Frame} {e : Error}

/-- The moments of a walk over the next item: the stack and the state after some turns. -/
inductive Reached (options : Options) (s : σ × τ) : Nat → List Frame → σ × τ → Prop
  | begun {frame : Frame} {t : σ × τ} (h : takeFrame options s = .ok frame t) :
      Reached options s 0 [frame] t
  | turned {n : Nat} {frame : Frame} {below frames : List Frame} {t u : σ × τ}
      (h : Reached options s n (frame :: below) t) (k : step options frame below t = .ok frames u) :
      Reached options s (n + 1) frames u

inductive Ended (options : Options) (s : σ × τ) : Nat → EStateM.Result Error (σ × τ) Unit → Prop
  | refused {e : Error} {t : σ × τ} (h : takeFrame options s = .error e t) :
      Ended options s 0 (.error e t)
  | emptied {n : Nat} {t : σ × τ} (h : Reached options s n [] t) : Ended options s n (.ok () t)
  | failed {n : Nat} {frame : Frame} {below : List Frame} {e : Error} {t u : σ × τ}
      (h : Reached options s n (frame :: below) t) (k : step options frame below t = .error e u) :
      Ended options s (n + 1) (.error e u)

/-- Wherever an action that only moves along the stream leaves off. -/
theorem Consumes.advances {S α : Type} [Input S] {k : Nat} {x : EStateM Error S α}
    (h : Consumes k x) {s : S} {r : EStateM.Result Error S α} (hx : x s = r) :
    ∃ bs, Advances s bs (final r) := by
  obtain ⟨bs, hadv, -⟩ := h s
  exact ⟨bs, hx ▸ hadv⟩

section Turns

/-- What a turn does to the stack: the frame on top goes, or makes way for another, or stays under
another as one that has one less to come. -/
theorem step_cases (h : step options frame below s = .ok frames t) :
    frames = below ∨
      (∃ child, frames = child :: below ∧ takeFrame options s = .ok child t) ∨
      ∃ child u, frames = child :: frame.advance :: below ∧ Advances s [] u ∧
        takeFrame options u = .ok child t := by
  have hopen {u : σ × τ} (hu : Advances s [] u)
      (h : openElement options frame below u = .ok frames t) :
      ∃ child u, frames = child :: frame.advance :: below ∧ Advances s [] u ∧
        takeFrame options u = .ok child t := by
    obtain ⟨child, v, hv, h⟩ := bind_eq_ok.1 h
    obtain ⟨rfl, rfl⟩ := pure_eq_ok.1 h
    exact ⟨child, u, rfl, hu, hv⟩
  cases hm : frame.major <;> simp only [step, hm] at h
  case unsigned | negative => exact Or.inl (pure_eq_ok.1 h).1.symm
  case special | bytes | text =>
    obtain ⟨_, _, -, h⟩ := bind_eq_ok.1 h
    exact Or.inl (pure_eq_ok.1 h).1.symm
  case tag =>
    obtain ⟨child, v, hv, h⟩ := bind_eq_ok.1 h
    obtain ⟨rfl, rfl⟩ := pure_eq_ok.1 h
    exact Or.inr (Or.inl ⟨child, rfl, hv⟩)
  case array | map =>
    unfold stepContainer at h
    split at h
    · obtain ⟨ended, u, hu, h⟩ := bind_eq_ok.1 h
      cases ended with
      | true =>
        obtain ⟨_, _, -, h⟩ := bind_eq_ok.1 h
        exact Or.inl (pure_eq_ok.1 h).1.symm
      | false => exact Or.inr (Or.inr (hopen (atBreak_eq_ok hu).1 h))
    · split at h
      · exact Or.inl (pure_eq_ok.1 h).1.symm
      · exact Or.inr (Or.inr (hopen Advances.rfl h))

/-- A turn puts at most as many frames on the stack as it consumes bytes. -/
theorem length_step (h : step options frame below s = .ok frames t) {bs : Bytes}
    (hadv : Advances s bs t) : frames.length ≤ below.length + 1 + bs.length := by
  have hlength := hadv.length_eq
  rcases step_cases h with rfl | ⟨child, rfl, -⟩ | ⟨child, u, rfl, hu, hv⟩
  · omega
  · simp only [List.length_cons]
    omega
  · have hlt := (Consumes.takeFrame options).lt_of_ok hv
    rw [hu.of_nil] at hlt
    simp only [List.length_cons]
    omega

/-- A count is taken from only if something is left of it. -/
theorem step_counted (hm : frame.major = .array ∨ frame.major = .map)
    (hi : frame.indefinite = false) :
    frame.remaining = 0 ∧ step options frame below s = .ok below s ∨
      frame.remaining = frame.advance.remaining + 1 ∧
        step options frame below s = openElement options frame below s := by
  have hcontainer : step options frame below s = stepContainer options frame below s := by
    rcases hm with hm | hm <;> simp only [step, hm]
  rw [hcontainer, stepContainer, if_neg (by simp [hi])]
  by_cases hr : frame.remaining = 0
  · rw [if_pos hr]
    exact Or.inl ⟨hr, rfl⟩
  · rw [if_neg hr]
    exact Or.inr ⟨(Nat.sub_one_add_one hr).symm, rfl⟩

end Turns

section Moments

/-- Frames and turns are paid for by the bytes that were consumed. -/
theorem Reached.bounded (h : Reached options s n frames t) :
    ∃ bs, Advances s bs t ∧ frames.length ≤ bs.length ∧ n + frames.length < 2 * bs.length := by
  induction h with
  | begun h =>
    obtain ⟨bs, hadv, hpos⟩ := Consumes.takeFrame options s
    rw [h, final_ok] at hadv
    have hone := hpos _ _ h
    exact ⟨bs, hadv, hone, by rw [List.length_singleton]; omega⟩
  | turned _ k ih =>
    obtain ⟨bs, hadv, hstack, hturns⟩ := ih
    obtain ⟨more, hmore⟩ := Consumes.advances (.step options _ _) k
    rw [final_ok] at hmore
    have hgrown := length_step k hmore
    have hpaid := potential_step k
    have hlength := hmore.length_eq
    -- A turn drops a frame or consumes a byte: turns and open frames together grow by bytes.
    rw [List.length_cons] at hstack hturns
    simp only [potential, List.length_cons] at hpaid
    refine ⟨bs ++ more, hadv.trans hmore, ?_, ?_⟩ <;> rw [List.length_append] <;> omega

/-- A walk takes at most two turns for each byte that it consumes. -/
theorem Ended.bounded {r : EStateM.Result Error (σ × τ) Unit} (h : Ended options s n r) :
    ∃ bs, Advances s bs (final r) ∧ n ≤ 2 * bs.length := by
  cases h with
  | refused h =>
    obtain ⟨bs, hadv⟩ := Consumes.advances (.takeFrame options) h
    exact ⟨bs, hadv, Nat.zero_le _⟩
  | emptied h =>
    obtain ⟨bs, hadv, -, hturns⟩ := h.bounded
    exact ⟨bs, hadv, by omega⟩
  | failed h k =>
    obtain ⟨bs, hadv, -, hturns⟩ := h.bounded
    obtain ⟨more, hmore⟩ := Consumes.advances (.step options _ _) k
    rw [List.length_cons] at hturns
    exact ⟨bs ++ more, hadv.trans hmore, by rw [List.length_append]; omega⟩

/-- From any moment the walk goes on to its end. -/
theorem Reached.exists_ended (h : Reached options s n frames t) :
    ∃ m, Ended options s m (walk options frames t) := by
  fun_induction walk options frames t generalizing n with
  | case1 t => exact ⟨n, .emptied h⟩
  | case2 t frame below e u k => exact ⟨n + 1, .failed h k⟩
  | case3 t frame below frames u k ih => exact ih (h.turned k)

/-- Every walk comes to an end. -/
theorem exists_ended (options : Options) (s : σ × τ) :
    ∃ n, Ended options s n (copyItem options s) := by
  rw [copyItem_eq, walkItem, bind_apply]
  cases h : takeFrame options s with
  | error e t => exact ⟨0, .refused h⟩
  | ok frame t => exact (Reached.begun h).exists_ended

end Moments

section Room

variable {room : Nat}

/-- A walk with memory for so many frames, which fails where it would leave more of them open. -/
def walkWithin (room : Nat) (options : Options) (frames : List Frame) (s : σ × τ) :
    EStateM.Result Error (σ × τ) Unit :=
  match frames with
  | [] => .ok () s
  | frame :: below =>
    match _h : step options frame below s with
    | .error e t => .error e t
    | .ok frames t =>
      if room < frames.length then .error .notEnoughMemory t
      else walkWithin room options frames t
termination_by potential frames s
decreasing_by exact potential_step ‹_›

def copyItemWithin (room : Nat) (options : Options) : EStateM Error (σ × τ) Unit := do
  let frame ← takeFrame options
  failIf (room = 0) .notEnoughMemory
  walkWithin room options [frame]

/-- With room for all frames that are ever open the limit on them makes no difference. -/
theorem Reached.walkWithin_eq (h : Reached options s n frames t)
    (hroom : ∀ m fs u, Reached options s m fs u → fs.length ≤ room) :
    walkWithin room options frames t = walk options frames t := by
  fun_induction walk options frames t generalizing n with
  | case1 t => rw [walkWithin]
  | case2 t frame below e u k =>
    rw [walkWithin]
    split
    · next k' =>
      cases k.symm.trans k'
      rfl
    · next k' => cases k.symm.trans k'
  | case3 t frame below frames u k ih =>
    rw [walkWithin]
    split
    · next k' => cases k.symm.trans k'
    · next k' =>
      cases k.symm.trans k'
      rw [if_neg (hroom _ _ _ (h.turned k)).not_gt]
      exact ih (h.turned k)

/-- Where there is memory for the frames of every moment, the walk does not notice its limit. -/
theorem copyItemWithin_eq (hroom : ∀ n frames t, Reached options s n frames t →
    frames.length ≤ room) : copyItemWithin room options s = copyItem options s := by
  rw [copyItem_eq, walkItem, bind_apply, copyItemWithin, bind_apply]
  cases h : takeFrame options s with
  | error e t => rfl
  | ok frame t =>
    have hbegun := Reached.begun h
    have hone : 1 ≤ room := hroom _ _ _ hbegun
    have hzero : room ≠ 0 := by omega
    dsimp only
    rw [failIf, if_neg hzero]
    exact hbegun.walkWithin_eq hroom

end Room

section Counts

/-- What a frame has to come is a word, and is not counted where a break ends it. -/
structure Frame.Counted (frame : Frame) : Prop where
  word : frame.remaining < 2 ^ 64
  uncounted : frame.indefinite = true → frame.remaining = 0

theorem Frame.Counted.advance (h : frame.Counted) : frame.advance.Counted :=
  ⟨(Nat.sub_le _ _).trans_lt h.word, fun hi => by
    rw [Frame.advance, h.uncounted hi]⟩

/-- A count of pairs may be doubled, because so many bytes are there. -/
theorem counted_of_takeFrame (h : takeFrame options s = .ok frame t)
    (hword : available t < 2 ^ 64) : frame.Counted := by
  obtain ⟨head, u, hu, h⟩ := bind_eq_ok.1 h
  obtain ⟨_, v, hv, h⟩ := bind_eq_ok.1 h
  obtain ⟨rfl, rfl⟩ := pure_eq_ok.1 h
  obtain ⟨lead, -, hs, -⟩ := Reads.takeHead options.mode s head u hu
  have hvalue := head.value.toNat_lt
  have hzero (hi : head.indefinite = true) : head.value.toNat = 0 := by
    rw [hs.value_eq_zero hi]
    rfl
  have hremaining : (Frame.ofHead head).remaining =
    if head.major = .map then 2 * head.value.toNat else head.value.toNat := rfl
  refine ⟨?_, fun hi => by rw [hremaining, hzero hi, ite_self]⟩
  rw [hremaining]
  split
  · next hm =>
    cases hi : head.indefinite with
    | true => rw [hzero hi]; decide
    | false =>
      unfold checkDeclared at hv
      rw [if_pos ⟨Or.inr hm, by simp [hi]⟩] at hv
      obtain ⟨_, w, hw, hv⟩ := bind_eq_ok.1 hv
      obtain ⟨hfits, rfl⟩ := checkAvailable_eq_ok.1 hw
      obtain ⟨-, rfl⟩ := checkItems_eq_ok.1 hv
      -- A pair takes two bytes at least, so the bytes reported bound the doubled count.
      rw [hm, capacityFor, if_pos rfl] at hfits
      omega
  · exact hvalue

/-- On an input that reports words every count is one, at every moment. -/
theorem Reached.counted (hword : ∀ bs u, Advances s bs u → available u < 2 ^ 64)
    (h : Reached options s n frames t) : ∀ frame ∈ frames, frame.Counted := by
  induction h with
  | begun h =>
    obtain ⟨bs, hadv⟩ := Consumes.advances (.takeFrame options) h
    exact List.forall_mem_singleton.mpr (counted_of_takeFrame h (hword bs _ hadv))
  | turned h k ih =>
    obtain ⟨bs, hadv, -⟩ := (h.turned k).bounded
    obtain ⟨htop, hbelow⟩ := List.forall_mem_cons.mp ih
    rcases step_cases k with rfl | ⟨child, rfl, hchild⟩ | ⟨child, v, rfl, -, hchild⟩
    · exact hbelow
    · exact List.forall_mem_cons.mpr ⟨counted_of_takeFrame hchild (hword bs _ hadv), hbelow⟩
    · exact List.forall_mem_cons.mpr ⟨counted_of_takeFrame hchild (hword bs _ hadv),
        List.forall_mem_cons.mpr ⟨htop.advance, hbelow⟩⟩

end Counts

/-- A walk over the next item ends, after at most two turns for each byte that it has consumed. At
every moment no more frames are open than bytes were consumed, and a turn that is under way is
within the bound too. A count is taken from only if something is left of it; and on an input that
reports words the counts are words, those of pairs doubled, so that doubling does not overflow. -/
theorem Transcriber.work_bounded (w : Transcriber) (s : σ × τ) :
    (∃ n bs r, Ended w.options s n r ∧
        Transcriber.copyItem (w, s) = onSecond (fun _ => r) (w.clear, s) ∧
        Advances s bs (final r) ∧ n ≤ 2 * bs.length) ∧
      (∀ n frames t, Reached w.options s n frames t →
        ∃ bs, Advances s bs t ∧ frames.length ≤ bs.length ∧ n + frames.length < 2 * bs.length) ∧
      (∀ frame below (t : σ × τ),
        frame.major = .array ∨ frame.major = .map → frame.indefinite = false →
        frame.remaining = 0 ∧ step w.options frame below t = .ok below t ∨
          frame.remaining = frame.advance.remaining + 1 ∧
            step w.options frame below t = openElement w.options frame below t) ∧
      ((∀ bs u, Advances s bs u → available u < 2 ^ 64) →
        ∀ n frames t, Reached w.options s n frames t → ∀ frame ∈ frames, frame.Counted) := by
  refine ⟨?_, fun n frames t h => h.bounded, fun frame below t hm hi => step_counted hm hi,
    fun hword n frames t h => h.counted hword⟩
  obtain ⟨n, hended⟩ := exists_ended w.options s
  obtain ⟨bs, hadv, hturns⟩ := hended.bounded
  exact ⟨n, bs, _, hended, Transcriber.copyItem_apply w s, hadv, hturns⟩

/-- Three arrays inside one another are open after two turns and three bytes; then nothing is left
to count, and the frame of the innermost goes. -/
theorem nested_arrays_bounded :
    let s : MemoryInput × Nowhere := (MemoryInput.ofBytes [0x81, 0x81, 0x80], {})
    let spent : Frame := ⟨.array, false, 0, false⟩
    ∃ t, Reached {} s 2 [spent, spent, spent] t ∧
      (∃ bs, Advances s bs t ∧ 3 ≤ bs.length ∧ 2 + 3 < 2 * bs.length) ∧
      step {} spent [spent, spent] t = .ok [spent, spent] t ∧ spent.Counted := by
  intro s spent
  obtain ⟨-, hbounds, hcounts, hwords⟩ := Transcriber.work_bounded ⟨{}, []⟩ s
  have hbegun : Reached {} s 0 [⟨.array, false, 1, false⟩]
    (⟨⟨[0x81, 0x80], 2, rfl⟩, 1⟩, ⟨1⟩) := .begun rfl
  have hone : Reached {} s 1 [⟨.array, false, 1, false⟩, spent]
    (⟨⟨[0x80], 1, rfl⟩, 2⟩, ⟨1⟩) := hbegun.turned rfl
  have htwo : Reached {} s 2 [spent, spent, spent] (⟨⟨[], 0, rfl⟩, 3⟩, ⟨1⟩) := hone.turned rfl
  have hmemory : ∀ bs u, Advances s bs u → available u < 2 ^ 64 := by
    intro bs u hadv
    have hlength := hadv.length_le
    have hsize : available u = (stream u).length := u.1.rest.size_eq
    have hthree : (stream s).length = 3 := rfl
    omega
  refine ⟨_, htwo, hbounds 2 _ _ htwo, ?_, hwords hmemory 2 _ _ htwo spent List.mem_cons_self⟩
  rcases hcounts spent [spent, spent] _ (Or.inl rfl) rfl with ⟨-, hstep⟩ | ⟨hone, -⟩
  · exact hstep
  · cases hone

end CborCodec
