import StreamLexer.Byte
import StreamLexer.Fault

/-!
# Sinks

Where reports are written to. A write that fails may have taken a part of its bytes. A buffered sink may also
hold back what it has taken, until it is flushed.
-/

namespace StreamLexer

class Sink (τ : Type) where
  write : τ → List Byte → Except Fault Unit × τ

/-- A sink that passes bytes on in order. What it fails to take is reported by the write, and what it fails to pass
on by the flush. -/
class BufferedSink (τ : Type) extends Sink τ where
  flush : τ → Except Fault Unit × τ
  /-- The bytes passed on so far. -/
  delivered : τ → List Byte
  /-- The bytes taken and not yet passed on. -/
  held : τ → List Byte
  write_ok {out out' : τ} {bytes : List Byte} : write out bytes = (.ok (), out') →
    delivered out' ++ held out' = delivered out ++ held out ++ bytes
  write_error {out out' : τ} {bytes : List Byte} {fault : Fault} : write out bytes = (.error fault, out') →
    delivered out' ++ held out' <+: delivered out ++ held out ++ bytes
  flush_ok {out out' : τ} : flush out = (.ok (), out') → delivered out' = delivered out ++ held out
  flush_error {out out' : τ} {fault : Fault} : flush out = (.error fault, out') →
    ∃ lost, lost ≠ [] ∧ delivered out' ++ lost = delivered out ++ held out

/-- A sink that takes `limit` bytes in all and fails with `fault` on the first byte beyond. -/
structure LimitedSink where
  limit : Option Nat
  fault : Fault
  written : Array Byte

namespace LimitedSink

def ofLimit (limit : Option Nat) (fault : Fault) : LimitedSink := ⟨limit, fault, #[]⟩

def write (out : LimitedSink) (bytes : List Byte) : Except Fault Unit × LimitedSink :=
  match out.limit with
  | none => (.ok (), { out with written := out.written ++ bytes })
  | some limit =>
    if out.written.size + bytes.length ≤ limit then (.ok (), { out with written := out.written ++ bytes })
    else (.error out.fault, { out with written := out.written ++ bytes.take (limit - out.written.size) })

end LimitedSink

instance : Sink LimitedSink := ⟨LimitedSink.write⟩

/-- A sink with a limit holds nothing back. -/
instance : BufferedSink LimitedSink where
  flush out := (.ok (), out)
  delivered out := out.written.toList
  held _ := []
  write_ok {out out' bytes} h := by
    have h : out.write bytes = (.ok (), out') := h
    unfold LimitedSink.write at h
    split at h
    · cases h; simp
    · split at h
      · cases h; simp
      · cases h
  write_error {out out' bytes fault} h := by
    have h : out.write bytes = (.error fault, out') := h
    unfold LimitedSink.write at h
    split at h
    · cases h
    · split at h
      · cases h
      · cases h
        simp [List.prefix_append_right_inj, List.take_prefix]
  flush_ok h := by cases h; simp
  flush_error h := by cases h

/-- A buffer in front of a device. Bytes reach the device when the buffer would overflow and when
it is flushed; a broken device takes none. -/
structure BufferedOutput where
  /-- Why the device takes nothing, if it is broken. -/
  broken : Option Fault
  pending : Array Byte
  delivered : Array Byte

namespace BufferedOutput

def capacity : Nat := 8192

def ofDevice (broken : Option Fault) : BufferedOutput := ⟨broken, #[], #[]⟩

def flush (out : BufferedOutput) : Except Fault Unit × BufferedOutput :=
  if out.pending.isEmpty then (.ok (), out)
  else
    match out.broken with
    | none => (.ok (), { out with pending := #[], delivered := out.delivered ++ out.pending })
    | some fault => (.error fault, out)

def hold (out : BufferedOutput) (bytes : List Byte) : BufferedOutput :=
  { out with pending := out.pending ++ bytes }

/-- Keeps the bytes for later if there is room. Otherwise the buffer is flushed first, and bytes
that would fill it alone go straight through. -/
def write (out : BufferedOutput) (bytes : List Byte) : Except Fault Unit × BufferedOutput :=
  if out.pending.size + bytes.length ≤ capacity then (.ok (), out.hold bytes)
  else
    match out.flush with
    | (.error fault, out') => (.error fault, out')
    | (.ok _, out') => if bytes.length < capacity then (.ok (), out'.hold bytes) else (out'.hold bytes).flush

theorem flush_ok {out out' : BufferedOutput} (h : out.flush = (.ok (), out')) :
    out'.delivered.toList = out.delivered.toList ++ out.pending.toList ∧ out'.pending = #[] := by
  unfold flush at h
  split at h
  · rename_i hempty
    cases h
    simp_all
  · split at h
    · cases h; simp
    · cases h

theorem flush_error {out out' : BufferedOutput} {fault : Fault} (h : out.flush = (.error fault, out')) :
    out' = out ∧ out.pending ≠ #[] := by
  unfold flush at h
  split at h
  · cases h
  · rename_i hpending
    split at h
    · cases h
    · cases h
      exact ⟨rfl, by simpa using hpending⟩

end BufferedOutput

instance : Sink BufferedOutput := ⟨BufferedOutput.write⟩

instance : BufferedSink BufferedOutput where
  flush := BufferedOutput.flush
  delivered out := out.delivered.toList
  held out := out.pending.toList
  write_ok {out out' bytes} h := by
    have h : out.write bytes = (.ok (), out') := h
    unfold BufferedOutput.write at h
    split at h
    · cases h; simp [BufferedOutput.hold]
    · rcases hf : out.flush with ⟨r, mid⟩
      rw [hf] at h
      cases r with
      | error fault => cases h
      | ok u =>
        obtain ⟨hdelivered, hpending⟩ := BufferedOutput.flush_ok hf
        simp only at h
        split at h
        · cases h; simp [BufferedOutput.hold, hdelivered, hpending]
        · obtain ⟨hdelivered', hpending'⟩ := BufferedOutput.flush_ok h
          simp [hdelivered', hpending', BufferedOutput.hold, hdelivered, hpending]
  write_error {out out' bytes fault} h := by
    have h : out.write bytes = (.error fault, out') := h
    unfold BufferedOutput.write at h
    split at h
    · cases h
    · rcases hf : out.flush with ⟨r, mid⟩
      rw [hf] at h
      cases r with
      | error fault' =>
        cases h
        obtain ⟨rfl, _⟩ := BufferedOutput.flush_error hf
        exact List.prefix_append _ _
      | ok u =>
        obtain ⟨hdelivered, hpending⟩ := BufferedOutput.flush_ok hf
        simp only at h
        split at h
        · cases h
        · obtain ⟨rfl, _⟩ := BufferedOutput.flush_error h
          simp [BufferedOutput.hold, hdelivered, hpending]
  flush_ok h := (BufferedOutput.flush_ok h).1
  flush_error {out out' fault} h := by
    obtain ⟨rfl, hpending⟩ := BufferedOutput.flush_error h
    exact ⟨out'.pending.toList, by simpa using hpending, rfl⟩

end StreamLexer
