import CborCodec.Head.Read
import CborCodec.Limits
/-!
Byte and text strings. A string of definite length is one chunk; one of indefinite length is a
run of definite chunks of its own kind up to a break. Every chunk of a text is UTF-8 by itself.
-/

namespace CborCodec

variable {σ : Type} [Input σ]

def appendChunk (major : Major) (length : Nat) (before : Array UInt8) :
    EStateM Error σ (Array UInt8) := do
  failIf (allocationLimit ≤ before.size + length) .notEnoughMemory
  let chunk ← Input.read length
  failIf (major = .text ∧ (Bytes.toText? chunk).isNone) .invalidUtf8
  return before ++ chunk

/-- Reads the head of the next chunk and answers its length, or `none` for the break. -/
def readChunkHead (options : Options) (major : Major) : EStateM Error σ (Option Nat) := do
  let head ← readHead options.mode
  if head.isBreak then
    return none
  else
    failIf (head.major ≠ major ∨ head.indefinite) .invalidIndefiniteSubitem
    return some head.value.toNat

def readChunk (options : Options) (major : Major) (length : Nat) (before : Array UInt8) :
    EStateM Error σ (Array UInt8) := do
  checkChunk options length before.size
  appendChunk major length before

theorem Consumes.readChunkHead (options : Options) (major : Major) :
    Consumes 1 (readChunkHead options major : EStateM Error σ (Option Nat)) :=
  .bind (k := 0) (.readHead _) fun _ =>
    .ite (fun _ => .pure _) fun _ => .seq (.failIf _ _) (.pure _)

theorem Consumes.readChunk (options : Options) (major : Major) (length : Nat)
    (before : Array UInt8) :
    Consumes length (readChunk options major length before : EStateM Error σ (Array UInt8)) := by
  refine .mono (.seq (.checkChunk _ _ _) (.seq (.failIf _ _) (.bind (.read length) fun _ =>
    .seq (.failIf _ _) (.pure _)))) ?_
  omega

def readChunks (options : Options) (major : Major) (before : Array UInt8) (s : σ) :
    EStateM.Result Error σ (Array UInt8) :=
  match _h : readChunkHead options major s with
  | .error e t => .error e t
  | .ok none t => .ok before t
  | .ok (some length) t =>
    match _k : readChunk options major length before t with
    | .error e u => .error e u
    | .ok after u => readChunks options major after u
termination_by (stream s).length
decreasing_by
  have := (Consumes.readChunkHead options major).lt_of_ok ‹_›
  have := (Consumes.readChunk options major length before).le_of_ok ‹_›
  omega

theorem Consumes.readChunks (options : Options) (major : Major) (before : Array UInt8) :
    Consumes 0 (readChunks options major before : EStateM Error σ (Array UInt8)) := by
  intro s
  fun_induction CborCodec.readChunks options major before s with
  | case1 before s e t h =>
    obtain ⟨bs, hbs, -⟩ := Consumes.readChunkHead (σ := σ) options major s
    exact ⟨bs, by simpa [h] using hbs, by simp⟩
  | case2 before s t h =>
    obtain ⟨bs, hbs, -⟩ := Consumes.readChunkHead (σ := σ) options major s
    exact ⟨bs, by simpa [h] using hbs, fun _ _ _ => Nat.zero_le _⟩
  | case3 before s length t h e u k =>
    obtain ⟨bs, hbs, -⟩ := Consumes.readChunkHead (σ := σ) options major s
    obtain ⟨cs, hcs, -⟩ := Consumes.readChunk (σ := σ) options major length before t
    rw [h, final_ok] at hbs
    rw [k, final_error] at hcs
    exact ⟨bs ++ cs, hbs.trans hcs, by simp⟩
  | case4 before s length t h after u k ih =>
    obtain ⟨bs, hbs, -⟩ := Consumes.readChunkHead (σ := σ) options major s
    obtain ⟨cs, hcs, -⟩ := Consumes.readChunk (σ := σ) options major length before t
    rw [h, final_ok] at hbs
    rw [k, final_ok] at hcs
    obtain ⟨ds, hds, -⟩ := ih
    exact ⟨bs ++ cs ++ ds, (hbs.trans hcs).trans hds, fun _ _ _ => Nat.zero_le _⟩

def readPieces (options : Options) (head : Head) : EStateM Error σ (Array UInt8) :=
  if head.indefinite then readChunks options head.major #[]
  else readChunk options head.major head.value.toNat #[]

def readPayload (options : Options) (head : Head) : EStateM Error σ Bytes := do
  let pieces ← readPieces options head
  return pieces.toList

def readString (options : Options) (major : Major) : EStateM Error σ Bytes := do
  let head ← readHead options.mode
  failIf (head.major ≠ major ∨ head.isBreak) .itemTypeMismatch
  readPayload options head

def readBytes (options : Options) : EStateM Error σ Bytes :=
  readString options .bytes

def textOf (bytes : Bytes) : Except Error String :=
  match Bytes.toText? bytes with
  | some s => .ok s
  | none => .error .invalidUtf8

def readText (options : Options) : EStateM Error σ String := do
  let bytes ← readString options .text
  known (textOf bytes)

theorem Consumes.readPayload (options : Options) (head : Head) :
    Consumes 0 (readPayload options head : EStateM Error σ Bytes) :=
  .bind (.ite (fun _ => .readChunks _ _ _) fun _ => .mono (.readChunk _ _ _ _) (Nat.zero_le _))
    fun _ => .pure _

theorem Consumes.readString (options : Options) (major : Major) :
    Consumes 1 (readString options major : EStateM Error σ Bytes) :=
  .bind (k := 0) (.readHead _) fun _ => .seq (.failIf _ _) (.readPayload _ _)

theorem Consumes.readText (options : Options) :
    Consumes 1 (readText options : EStateM Error σ String) :=
  .bind (k := 0) (.readString _ _) fun _ => .known _

end CborCodec
