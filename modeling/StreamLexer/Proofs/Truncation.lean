import StreamLexer.Proofs.Listing

/-!
# A full sink cuts a report short

A sink with a limit keeps the first bytes of a report and refuses the rest. Where the report fits, nothing
is lost and nothing else happens. Where it does not, the report breaks off at the limit, and that is the
error even if the lexer would have failed later.
-/

namespace StreamLexer

namespace LimitedSink

section
variable {limit : Nat} {fault : Fault} {written : Array Byte} {bytes : List Byte}

theorem write_of_fits (h : written.size + bytes.length ≤ limit) :
    write ⟨some limit, fault, written⟩ bytes = (.ok (), ⟨some limit, fault, written ++ bytes⟩) := by
  simp only [write, if_pos h]

theorem write_of_full (h : ¬ written.size + bytes.length ≤ limit) :
    write ⟨some limit, fault, written⟩ bytes =
      (.error fault, ⟨some limit, fault, written ++ bytes.take (limit - written.size)⟩) := by
  simp only [write, if_neg h]

end

end LimitedSink

namespace Report

open Lexer

/-- The result of a report, and the bytes that a sink with this limit has kept of it. -/
def keptUpTo (limit : Option Nat) (fault : Fault) (options : Options) (label : String) (source : Source) :
    Except CommandError Summary × List Byte :=
  ((write options label source (LimitedSink.ofLimit limit fault)).1,
    (write options label source (LimitedSink.ofLimit limit fault)).2.written.toList)

section
variable {α : Type} (result : Except CommandError α) {limit : Nat} {fault : Fault}

theorem emitAll_of_fits {texts : List String} {written : Array Byte}
    (h : written.size + (Text.utf8 (String.join texts)).length ≤ limit) :
    emitAll result (⟨some limit, fault, written⟩ : LimitedSink) texts =
      (result, ⟨some limit, fault, written ++ Text.utf8 (String.join texts)⟩) := by
  induction texts generalizing written with
  | nil => simp [emitAll, Text.utf8]
  | cons text texts ih =>
    rw [String.join_cons, Text.utf8_append, List.length_append] at h
    have hrest : (written ++ Text.utf8 text).size + (Text.utf8 (String.join texts)).length ≤ limit := by
      rw [Text.size_append_utf8]
      omega
    have hwrite : Sink.write (⟨some limit, fault, written⟩ : LimitedSink) (Text.utf8 text) = _ :=
      LimitedSink.write_of_fits (by omega)
    simp only [emitAll, emit, hwrite]
    rw [ih hrest, Text.append_utf8, String.join_cons]

theorem emitAll_of_full {texts : List String} {written : Array Byte} (hroom : written.size ≤ limit)
    (h : ¬ written.size + (Text.utf8 (String.join texts)).length ≤ limit) :
    emitAll result (⟨some limit, fault, written⟩ : LimitedSink) texts =
      (.error (.write fault),
        ⟨some limit, fault, written ++ (Text.utf8 (String.join texts)).take (limit - written.size)⟩) := by
  induction texts generalizing written with
  | nil => simp [Text.utf8] at h; omega
  | cons text texts ih =>
    rw [String.join_cons, Text.utf8_append] at h ⊢
    by_cases hfits : written.size + (Text.utf8 text).length ≤ limit
    · have hsize := Text.size_append_utf8 written text
      have hwrite : Sink.write (⟨some limit, fault, written⟩ : LimitedSink) (Text.utf8 text) = _ :=
        LimitedSink.write_of_fits hfits
      have hwhole : (Text.utf8 text).take (limit - written.size) = Text.utf8 text :=
        List.take_of_length_le (by omega)
      rw [List.length_append] at h
      simp only [emitAll, emit, hwrite]
      rw [ih (by omega) (by omega), List.take_append, hwhole, hsize, Nat.sub_sub]
      simp [← Array.toList_inj]
    · have hwrite : Sink.write (⟨some limit, fault, written⟩ : LimitedSink) (Text.utf8 text) = _ :=
        LimitedSink.write_of_full hfits
      simp only [emitAll, emit, hwrite]
      rw [List.take_append_of_le_length (by omega)]

end

section
variable {options : Options} {source : Source} {l : Lexer BufferPair} (h : ofSource options.capacity source = .ok l)
include h

theorem keptUpTo_none (fault : Fault) (label : String) :
    keptUpTo none fault options label source =
      (outcome options l.run, Text.utf8 (String.join (texts options label l.run))) := by
  simp [keptUpTo, write_eq h, LimitedSink.ofLimit, emitAll_unlimited]

theorem keptUpTo_some (limit : Nat) (fault : Fault) (label : String) :
    keptUpTo (some limit) fault options label source =
      if (Text.utf8 (String.join (texts options label l.run))).length ≤ limit then
        (outcome options l.run, Text.utf8 (String.join (texts options label l.run)))
      else (.error (.write fault), (Text.utf8 (String.join (texts options label l.run))).take limit) := by
  by_cases hfits : (Text.utf8 (String.join (texts options label l.run))).length ≤ limit
  · rw [if_pos hfits, keptUpTo, write_eq h, LimitedSink.ofLimit, emitAll_of_fits _ (by simpa using hfits)]
    simp
  · rw [if_neg hfits, keptUpTo, write_eq h, LimitedSink.ofLimit,
      emitAll_of_full _ (Nat.zero_le limit) (by simpa using hfits)]
    simp

end

/-- A sink that is full cuts a report and does nothing else to it: where the whole report fits, result and
bytes are those of a sink without a limit, and where it does not, the first bytes are kept and the result is
that the write failed. So a report that is said to be complete is complete. -/
theorem limit_only_truncates (options : Options) (label : String) (source : Source) (limit : Nat)
    (fault unused : Fault) :
    keptUpTo (some limit) fault options label source =
        (if (keptUpTo none unused options label source).2.length ≤ limit then keptUpTo none unused options label source
        else (.error (.write fault), (keptUpTo none unused options label source).2.take limit)) ∧
      ∀ summary, (keptUpTo (some limit) fault options label source).1 = .ok summary →
        keptUpTo none unused options label source = keptUpTo (some limit) fault options label source := by
  have hcut : keptUpTo (some limit) fault options label source =
      if (keptUpTo none unused options label source).2.length ≤ limit then keptUpTo none unused options label source
      else (.error (.write fault), (keptUpTo none unused options label source).2.take limit) := by
    cases h : ofSource options.capacity source with
    | error error => simp [keptUpTo, write_error h, LimitedSink.ofLimit]
    | ok l => rw [keptUpTo_none h, keptUpTo_some h]
  refine ⟨hcut, ?_⟩
  intro summary hok
  by_cases hfits : (keptUpTo none unused options label source).2.length ≤ limit
  · rw [hcut, if_pos hfits]
  · rw [hcut, if_neg hfits] at hok
    cases hok

end Report

end StreamLexer
