import CborCodec.Chunks
import CborCodec.Output
/-!
Walking over an item without decoding it, to copy it or to skip it. What is open is kept on a
stack of frames. Every step takes a byte from the input or a frame off the stack, and opens at
most one frame for each byte, so a walk ends when the input does, whatever counts it declares.
-/

namespace CborCodec

variable {σ τ : Type} [Input σ] [Output τ]

/-- An item that is not yet complete. -/
structure Frame where
  major : Major
  indefinite : Bool
  /-- The elements, keys and values, or bytes to come, where their number is known. -/
  remaining : Nat
  /-- Whether a key has been seen but not its value. -/
  owed : Bool
  deriving DecidableEq, Repr, Inhabited

/-- Writes to the output half of a walk's state. -/
def emitHead (bs : Bytes) : EStateM Error (σ × τ) Unit :=
  onSecond (Output.putHead bs)

def takeHead (mode : Mode) : EStateM Error (σ × τ) Head := do
  let head ← peekHead mode
  let s ← get
  emitHead ((window s).toList.take head.encodedLength)
  Input.skip head.encodedLength
  return head

def Frame.ofHead (head : Head) : Frame where
  major := head.major
  indefinite := head.indefinite
  remaining := if head.major = .map then 2 * head.value.toNat else head.value.toNat
  owed := false

def checkDeclared (options : Options) (head : Head) : EStateM Error σ Unit :=
  if (head.major = .array ∨ head.major = .map) ∧ !head.indefinite then do
    checkAvailable head.major head.value.toNat
    checkItems options head.value.toNat
  else pure ()

def takeFrame (options : Options) : EStateM Error (σ × τ) Frame := do
  let head ← takeHead options.mode
  checkDeclared options head
  return Frame.ofHead head

/-- Moves payload bytes to the output, a resident window at a time. -/
def transfer (length : Nat) (s : σ × τ) : EStateM.Result Error (σ × τ) Unit :=
  if length = 0 then .ok () s
  else
    match _h : Input.need 1 s with
    | .error e t => .error e t
    | .ok () t =>
      let n := min (window t).size length
      match onSecond (Output.put ((window t).toList.take n)) t with
      | .error e u => .error e u
      | .ok () u => transfer (length - n) (Cursor.discard n u)
termination_by length
decreasing_by
  have := size_of_need ‹_›
  omega

def takeChunkHead (options : Options) (major : Major) :
    EStateM Error (σ × τ) (Option Nat) := do
  let head ← takeHead options.mode
  if head.isBreak then
    return none
  else
    failIf (head.major ≠ major ∨ head.indefinite) .invalidIndefiniteSubitem
    return some head.value.toNat

def transferChunk (options : Options) (length total : Nat) : EStateM Error (σ × τ) Unit := do
  checkChunk options length total
  transfer length

omit [Output τ] in
theorem Consumes.onSecond {α : Type} (x : EStateM Error τ α) :
    Consumes 0 (onSecond x : EStateM Error (σ × τ) α) := by
  rintro ⟨s, t⟩
  refine ⟨[], ?_, fun _ _ _ => Nat.le_refl 0⟩
  cases h : x t <;> simp [CborCodec.onSecond, h] <;> exact Advances.rfl

omit [Input σ] [Output τ] in
theorem fst_of_onSecond {α : Type} {x : EStateM Error τ α} {s t : σ × τ} {a : α}
    (h : onSecond x s = .ok a t) : t.1 = s.1 :=
  (onSecond_eq_ok.1 h).2.symm

theorem Consumes.takeHead (mode : Mode) :
    Consumes 1 (takeHead mode : EStateM Error (σ × τ) Head) := by
  have h0 : Consumes 0 (CborCodec.takeHead mode : EStateM Error (σ × τ) Head) :=
    .bind (.peekHead mode) fun _ => .bind .get fun _ =>
      .seq (.onSecond _) (.seq (.skip _) (.pure _))
  intro s
  obtain ⟨bs, hbs, -⟩ := h0 s
  refine ⟨bs, hbs, fun head u e => ?_⟩
  have hend := hbs.length_eq
  rw [e, final_ok] at hend
  -- Open a successful run into its steps: the peek, the copy and the move past the head.
  unfold CborCodec.takeHead at e
  obtain ⟨head', t, hp, e⟩ := bind_eq_ok.1 e
  obtain ⟨a, t', hg, e⟩ := bind_eq_ok.1 e
  obtain ⟨rfl, rfl⟩ := get_eq_ok.1 hg
  obtain ⟨_, v, hv, e⟩ := bind_eq_ok.1 e
  obtain ⟨_, w, hw, e⟩ := bind_eq_ok.1 e
  obtain ⟨rfl, rfl⟩ := pure_eq_ok.1 e
  obtain ⟨hl, hsize⟩ := pos_of_peekHead hp
  have hle := (Consumes.peekHead mode).le_of_ok hp
  -- Copying leaves the input alone, so the head that is passed over is the one that was seen.
  have hfst : window v = window t := congrArg (fun i : σ => window i) (fst_of_onSecond hv)
  have hstr : stream v = stream t := congrArg (fun i : σ => stream i) (fst_of_onSecond hv)
  have hskip := (Cursor.advances_discard head'.encodedLength v).length_eq
  cases hw
  rw [List.length_take, ← (window v).size_eq, hfst, hstr] at hskip
  omega

theorem Consumes.takeChunkHead (options : Options) (major : Major) :
    Consumes 1 (takeChunkHead options major : EStateM Error (σ × τ) (Option Nat)) :=
  .bind (k := 0) (.takeHead _) fun _ =>
    .ite (fun _ => .pure _) fun _ => .seq (.failIf _ _) (.pure _)

theorem Consumes.checkDeclared (options : Options) (head : Head) :
    Consumes 0 (checkDeclared options head : EStateM Error σ Unit) :=
  .ite (fun _ => .seq (.checkAvailable _ _) (.checkItems _ _)) fun _ => .pure _

theorem Consumes.takeFrame (options : Options) :
    Consumes 1 (takeFrame options : EStateM Error (σ × τ) Frame) :=
  .bind (k := 0) (.takeHead _) fun _ => .seq (.checkDeclared _ _) (.pure _)

theorem Consumes.transfer (length : Nat) :
    Consumes length (transfer length : EStateM Error (σ × τ) Unit) := by
  intro s
  fun_induction CborCodec.transfer length s with
  | case1 s => exact ⟨[], Advances.rfl, fun _ _ _ => Nat.le_refl 0⟩
  | case2 length s hl e t h =>
    obtain ⟨bs, hbs, -⟩ := Consumes.need (σ := σ × τ) 1 s
    exact ⟨bs, by simpa [h] using hbs, by simp⟩
  | case3 length s hl t h n e u hu =>
    obtain ⟨bs, hbs, -⟩ := Consumes.need (σ := σ × τ) 1 s
    rw [h, final_ok] at hbs
    obtain ⟨cs, hcs, -⟩ := Consumes.onSecond (σ := σ)
      (Output.put (τ := τ) ((window t).toList.take n)) t
    rw [hu, final_error] at hcs
    exact ⟨bs ++ cs, hbs.trans hcs, by simp⟩
  | case4 length s hl t h n u hu ih =>
    -- One window is made resident, copied and passed over; the rest is the induction's.
    obtain ⟨bs, hbs, -⟩ := Consumes.need (σ := σ × τ) 1 s
    rw [h, final_ok] at hbs
    obtain ⟨cs, hcs, -⟩ := Consumes.onSecond (σ := σ)
      (Output.put (τ := τ) ((window t).toList.take n)) t
    rw [hu, final_ok] at hcs
    obtain ⟨ds, hds, hk⟩ := ih
    have hsize : (window u).size = (window t).size :=
      congrArg (fun i : σ => (window i).size) (fst_of_onSecond hu)
    have hadv := Cursor.advances_discard n u
    refine ⟨bs ++ cs ++ (window u).toList.take n ++ ds,
      ((hbs.trans hcs).trans hadv).trans hds, fun a v hv => ?_⟩
    have := hk a v hv
    simp only [List.length_append, List.length_take, ← (window u).size_eq, hsize]
    omega

theorem Consumes.transferChunk (options : Options) (length total : Nat) :
    Consumes 0 (transferChunk options length total : EStateM Error (σ × τ) Unit) :=
  .seq (.checkChunk _ _ _) (.mono (.transfer length) (Nat.zero_le _))

def transferChunks (options : Options) (major : Major) (total : Nat) (s : σ × τ) :
    EStateM.Result Error (σ × τ) Unit :=
  match _h : takeChunkHead options major s with
  | .error e t => .error e t
  | .ok none t => .ok () t
  | .ok (some length) t =>
    match _k : transferChunk options length total t with
    | .error e u => .error e u
    | .ok () u => transferChunks options major (total + length) u
termination_by (stream s).length
decreasing_by
  have := (Consumes.takeChunkHead options major).lt_of_ok ‹_›
  have := (Consumes.transferChunk options length total).le_of_ok ‹_›
  omega

theorem Consumes.transferChunks (options : Options) (major : Major) (total : Nat) :
    Consumes 0 (transferChunks options major total : EStateM Error (σ × τ) Unit) := by
  intro s
  fun_induction CborCodec.transferChunks options major total s with
  | case1 total s e t h =>
    obtain ⟨bs, hbs, -⟩ := Consumes.takeChunkHead (σ := σ) (τ := τ) options major s
    exact ⟨bs, by simpa [h] using hbs, by simp⟩
  | case2 total s t h =>
    obtain ⟨bs, hbs, -⟩ := Consumes.takeChunkHead (σ := σ) (τ := τ) options major s
    exact ⟨bs, by simpa [h] using hbs, fun _ _ _ => Nat.zero_le _⟩
  | case3 total s length t h e u k =>
    obtain ⟨bs, hbs, -⟩ := Consumes.takeChunkHead (σ := σ) (τ := τ) options major s
    obtain ⟨cs, hcs, -⟩ := Consumes.transferChunk (σ := σ) (τ := τ) options length total t
    rw [h, final_ok] at hbs
    rw [k, final_error] at hcs
    exact ⟨bs ++ cs, hbs.trans hcs, by simp⟩
  | case4 total s length t h u k ih =>
    -- The head, its payload, and then the chunks after it.
    obtain ⟨bs, hbs, -⟩ := Consumes.takeChunkHead (σ := σ) (τ := τ) options major s
    obtain ⟨cs, hcs, -⟩ := Consumes.transferChunk (σ := σ) (τ := τ) options length total t
    rw [h, final_ok] at hbs
    rw [k, final_ok] at hcs
    obtain ⟨ds, hds, -⟩ := ih
    exact ⟨bs ++ cs ++ ds, (hbs.trans hcs).trans hds, fun _ _ _ => Nat.zero_le _⟩

def transferString (options : Options) (frame : Frame) : EStateM Error (σ × τ) Unit :=
  if frame.indefinite then transferChunks options frame.major 0
  else transferChunk options frame.remaining 0

/-- Copies the break that ends a container, unless a value is owed. -/
def closeContainer (frame : Frame) : EStateM Error (σ × τ) Unit := do
  failIf (frame.owed = true) .itemTypeMismatch
  emitHead [breakByte]
  Input.skip 1

/-- The container after one more of its elements is begun. -/
def Frame.advance (frame : Frame) : Frame :=
  { frame with
    remaining := frame.remaining - 1
    owed := if frame.major = .map then !frame.owed else frame.owed }

def openElement (options : Options) (frame : Frame) (below : List Frame) :
    EStateM Error (σ × τ) (List Frame) := do
  let child ← takeFrame options
  return child :: frame.advance :: below

/-- One step with a container on top of the stack: its end, or its next element. -/
def stepContainer (options : Options) (frame : Frame) (below : List Frame) :
    EStateM Error (σ × τ) (List Frame) :=
  if frame.indefinite then do
    if ← atBreak then
      closeContainer frame
      return below
    else
      openElement options frame below
  else if frame.remaining = 0 then pure below
  else openElement options frame below

/-- One step of a walk with `frame` on top of the frames `below`, answering the new stack. A tag
makes way for the item it is put on. -/
def step (options : Options) (frame : Frame) (below : List Frame) :
    EStateM Error (σ × τ) (List Frame) :=
  match frame.major with
  | .unsigned | .negative => pure below
  | .special => do
    failIf (frame.indefinite = true) .itemTypeMismatch
    return below
  | .bytes | .text => do
    transferString options frame
    return below
  | .array | .map => stepContainer options frame below
  | .tag => do
    let child ← takeFrame options
    return child :: below

theorem Consumes.transferString (options : Options) (frame : Frame) :
    Consumes 0 (transferString options frame : EStateM Error (σ × τ) Unit) :=
  .ite (fun _ => .transferChunks _ _ _) fun _ => .transferChunk _ _ _

theorem Consumes.closeContainer (frame : Frame) :
    Consumes 0 (closeContainer frame : EStateM Error (σ × τ) Unit) :=
  .seq (.failIf _ _) (.seq (.onSecond _) (.skip _))

/-- What a walk may still do: each byte left pays for two steps, each open frame for one. -/
def potential (frames : List Frame) (s : σ) : Nat :=
  2 * (stream s).length + frames.length

/-- The head of an element pays for the frame that it opens. -/
theorem potential_openElement {options : Options} {frame : Frame} {below frames : List Frame}
    {s t : σ × τ} (h : openElement options frame below s = .ok frames t) :
    potential frames t < potential (frame :: below) s := by
  obtain ⟨child, u, hu, h⟩ := bind_eq_ok.1 h
  obtain ⟨rfl, rfl⟩ := pure_eq_ok.1 h
  -- The frame that is added is paid for by the head's first byte, which was worth two.
  have := (Consumes.takeFrame options).le_of_ok hu
  simp only [potential, List.length_cons]
  omega

theorem potential_stepContainer {options : Options} {frame : Frame} {below frames : List Frame}
    {s t : σ × τ} (h : stepContainer options frame below s = .ok frames t) :
    potential frames t < potential (frame :: below) s := by
  unfold stepContainer at h
  split at h
  -- Of indefinite length: the frame goes with the break, or an element is opened.
  · obtain ⟨ended, u, hu, h⟩ := bind_eq_ok.1 h
    have hle := (Consumes.atBreak (σ := σ × τ)).le_of_ok hu
    split at h
    · obtain ⟨_, v, hv, h⟩ := bind_eq_ok.1 h
      obtain ⟨rfl, rfl⟩ := pure_eq_ok.1 h
      have := (Consumes.closeContainer frame).le_of_ok hv
      simp only [potential, List.length_cons]
      omega
    · have := potential_openElement h
      simp only [potential, List.length_cons] at *
      omega
  -- Of definite length: the frame goes once nothing remains, or an element is opened.
  · split at h
    · obtain ⟨rfl, rfl⟩ := pure_eq_ok.1 h
      simp only [potential, List.length_cons]
      omega
    · exact potential_openElement h

/-- Every step uses up some of the potential. -/
theorem potential_step {options : Options} {frame : Frame} {below frames : List Frame}
    {s t : σ × τ} (h : step options frame below s = .ok frames t) :
    potential frames t < potential (frame :: below) s := by
  cases hm : frame.major <;> simp only [step, hm] at h
  case unsigned | negative =>
    obtain ⟨rfl, rfl⟩ := pure_eq_ok.1 h
    simp only [potential, List.length_cons]
    omega
  case special =>
    obtain ⟨_, u, hu, h⟩ := bind_eq_ok.1 h
    obtain ⟨-, rfl⟩ := failIf_eq_ok.1 hu
    obtain ⟨rfl, rfl⟩ := pure_eq_ok.1 h
    simp only [potential, List.length_cons]
    omega
  case bytes | text =>
    obtain ⟨_, u, hu, h⟩ := bind_eq_ok.1 h
    obtain ⟨rfl, rfl⟩ := pure_eq_ok.1 h
    have := (Consumes.transferString options frame).le_of_ok hu
    simp only [potential, List.length_cons]
    omega
  case array | map => exact potential_stepContainer h
  case tag =>
    obtain ⟨child, u, hu, h⟩ := bind_eq_ok.1 h
    obtain ⟨rfl, rfl⟩ := pure_eq_ok.1 h
    have := (Consumes.takeFrame options).le_of_ok hu
    simp only [potential, List.length_cons]
    omega

/-- Takes steps until no frame is left. -/
def walk (options : Options) (frames : List Frame) (s : σ × τ) :
    EStateM.Result Error (σ × τ) Unit :=
  match frames with
  | [] => .ok () s
  | frame :: below =>
    match _h : step options frame below s with
    | .error e t => .error e t
    | .ok frames t => walk options frames t
termination_by potential frames s
decreasing_by exact potential_step ‹_›

theorem Consumes.openElement (options : Options) (frame : Frame) (below : List Frame) :
    Consumes 0 (openElement options frame below : EStateM Error (σ × τ) (List Frame)) :=
  .mono (.bind (.takeFrame _) fun _ => .pure _) (Nat.zero_le 1)

theorem Consumes.step (options : Options) (frame : Frame) (below : List Frame) :
    Consumes 0 (step options frame below : EStateM Error (σ × τ) (List Frame)) := by
  have hc : Consumes 0
      (stepContainer options frame below : EStateM Error (σ × τ) (List Frame)) :=
    .ite (fun _ => .bind .atBreak fun _ =>
        .ite (fun _ => .seq (.closeContainer _) (.pure _)) fun _ => .openElement _ _ _)
      fun _ => .ite (fun _ => .pure _) fun _ => .openElement _ _ _
  cases hm : frame.major <;> simp only [CborCodec.step, hm]
  case unsigned | negative => exact .pure _
  case special => exact .seq (.failIf _ _) (.pure _)
  case bytes | text => exact .seq (.transferString _ _) (.pure _)
  case array | map => exact hc
  case tag => exact .mono (.bind (.takeFrame _) fun _ => .pure _) (Nat.zero_le 1)

theorem Consumes.walk (options : Options) (frames : List Frame) :
    Consumes 0 (walk options frames : EStateM Error (σ × τ) Unit) := by
  intro s
  fun_induction CborCodec.walk options frames s with
  | case1 s => exact ⟨[], Advances.rfl, fun _ _ _ => Nat.le_refl 0⟩
  | case2 s frame below e t h =>
    obtain ⟨bs, hbs, -⟩ := Consumes.step (σ := σ) (τ := τ) options frame below s
    exact ⟨bs, by simpa [h] using hbs, by simp⟩
  | case3 s frame below frames t h ih =>
    obtain ⟨bs, hbs, -⟩ := Consumes.step (σ := σ) (τ := τ) options frame below s
    rw [h, final_ok] at hbs
    obtain ⟨cs, hcs, -⟩ := ih
    exact ⟨bs ++ cs, hbs.trans hcs, fun _ _ _ => Nat.zero_le _⟩

def copyItem (options : Options) : EStateM Error (σ × τ) Unit := do
  let frame ← takeFrame options
  walk options [frame]

def skipItem (options : Options) : EStateM Error σ Unit := fun s =>
  match copyItem options (s, ({} : Nowhere)) with
  | .ok () t => .ok () t.1
  | .error e t => .error e t.1

theorem Consumes.copyItem (options : Options) :
    Consumes 1 (copyItem options : EStateM Error (σ × τ) Unit) :=
  .bind (k := 0) (.takeFrame _) fun _ => .walk _ _

/-- An item takes a byte at least. -/
theorem Consumes.skipItem (options : Options) :
    Consumes 1 (skipItem options : EStateM Error σ Unit) := by
  intro s
  obtain ⟨bs, hbs, hk⟩ := Consumes.copyItem (σ := σ) (τ := Nowhere) options (s, {})
  refine ⟨bs, ?_, ?_⟩ <;> unfold CborCodec.skipItem
  · cases h : CborCodec.copyItem options (s, ({} : Nowhere)) <;> rw [h] at hbs <;> exact hbs
  · intro a t ht
    cases h : CborCodec.copyItem options (s, ({} : Nowhere)) with
    | ok u v => exact hk u v h
    | error e v => simp [h] at ht

end CborCodec
