import Mathlib.Algebra.Group.Nat.Defs
import Mathlib.Tactic.Common
import StreamLexer.Command.Program
import StreamLexer.Proofs.Truncation

/-!
# What the exit status tells

A report goes through a sink that may hold bytes back and may fail at any byte. Whatever the sink does, what comes
through is the front of the report, and the exit status is 0 just if all of it has come through and nothing else went
wrong. Of several things that go wrong one is told: bad options before the input is opened, an error of the
report before a failure to flush what it had written. The exception is a size that the options accept and no
memory can hold. Then there is no report and no error line, and the status is neither.
-/

namespace StreamLexer

namespace BufferedSink

section
variable {τ : Type} [BufferedSink τ]

def taken (out : τ) : List Byte := delivered out ++ held out

def writeAll (out : τ) : List (List Byte) → Except Fault Unit × τ
  | [] => (.ok (), out)
  | piece :: pieces =>
    match Sink.write out piece with
    | (.ok _, out') => writeAll out' pieces
    | (.error fault, out') => (.error fault, out')

/-- Whatever is written, neither the writes fail nor a flush behind them. -/
def Works (out : τ) : Prop :=
  ∀ pieces, ∃ out' out'', writeAll out pieces = (.ok (), out') ∧ flush out' = (.ok (), out'')

theorem delivered_flush_prefix (out : τ) : delivered (flush out).2 <+: taken out := by
  rcases hf : flush out with ⟨r, out'⟩
  cases r with
  | ok u =>
    have hdelivered : delivered out' = taken out := flush_ok hf
    exact hdelivered ▸ List.prefix_refl _
  | error fault =>
    obtain ⟨lost, _, hlost⟩ := flush_error hf
    exact ⟨lost, hlost⟩

end

end BufferedSink

open BufferedSink

theorem BufferedOutput.flush_of_unbroken {out : BufferedOutput} (h : out.broken = none) :
    ∃ out', out.flush = (.ok (), out') ∧ out'.broken = none := by
  unfold BufferedOutput.flush
  by_cases hempty : out.pending.isEmpty = true
  · simp [hempty, h]
  · simp [hempty, h]

theorem BufferedOutput.write_of_unbroken {out : BufferedOutput} (h : out.broken = none) (bytes : List Byte) :
    ∃ out', out.write bytes = (.ok (), out') ∧ out'.broken = none := by
  unfold BufferedOutput.write
  by_cases hroom : out.pending.size + bytes.length ≤ capacity
  · simp [hroom, hold, h]
  · obtain ⟨mid, hflush, hmid⟩ := flush_of_unbroken h
    simp only [hroom, if_false, hflush]
    by_cases hsmall : bytes.length < capacity
    · simp [hsmall, hold, hmid]
    · have hheld : (mid.hold bytes).broken = none := hmid
      simp only [hsmall, if_false]
      exact flush_of_unbroken hheld

theorem BufferedOutput.works_of_unbroken {out : BufferedOutput} (h : out.broken = none) : Works out := by
  intro pieces
  induction pieces generalizing out with
  | nil =>
    obtain ⟨out', hflush, _⟩ := flush_of_unbroken h
    exact ⟨out, out', rfl, hflush⟩
  | cons piece pieces ih =>
    obtain ⟨mid, hwrite, hmid⟩ := write_of_unbroken h piece
    obtain ⟨out', out'', hrest, hflush⟩ := ih hmid
    refine ⟨out', out'', ?_, hflush⟩
    have hwrite : Sink.write out piece = (.ok (), mid) := hwrite
    rw [writeAll, hwrite]
    exact hrest

/-! ## Reports through a sink -/

namespace Report

section
variable {τ α : Type} [BufferedSink τ]

theorem emitAll_taken (result : Except CommandError α) : ∀ (texts : List String) (out : τ),
    ((emitAll result out texts).1 = result ∧
      taken (emitAll result out texts).2 = taken out ++ Text.utf8 (String.join texts)) ∨
    ((∃ fault, (emitAll result out texts).1 = .error (.write fault)) ∧
      taken (emitAll result out texts).2 <+: taken out ++ Text.utf8 (String.join texts))
  | [], out => Or.inl ⟨rfl, by simp [emitAll, Text.utf8]⟩
  | text :: texts, out => by
    rw [String.join_cons, Text.utf8_append, ← List.append_assoc]
    simp only [emitAll, emit]
    rcases hw : Sink.write out (Text.utf8 text) with ⟨r, out'⟩
    cases r with
    | ok u =>
      have htaken : taken out' = taken out ++ Text.utf8 text := write_ok hw
      rw [← htaken]
      exact emitAll_taken result texts out'
    | error fault =>
      have htaken : taken out' <+: taken out ++ Text.utf8 text := BufferedSink.write_error hw
      exact Or.inr ⟨⟨fault, rfl⟩, htaken.trans (List.prefix_append _ _)⟩

theorem emitAll_of_writeAll (result : Except CommandError α) : ∀ {texts : List String} {out out' : τ},
    writeAll out (texts.map Text.utf8) = (.ok (), out') →
      emitAll result out texts = (result, out') ∧ taken out' = taken out ++ Text.utf8 (String.join texts)
  | [], _, _, h => by
    cases h
    exact ⟨rfl, by simp [Text.utf8]⟩
  | text :: texts, out, out', h => by
    rw [String.join_cons, Text.utf8_append, ← List.append_assoc]
    simp only [List.map_cons, writeAll] at h
    simp only [emitAll, emit]
    rcases hw : Sink.write out (Text.utf8 text) with ⟨r, mid⟩
    rw [hw] at h
    cases r with
    | ok u =>
      have htaken : taken mid = taken out ++ Text.utf8 text := write_ok hw
      rw [← htaken]
      exact emitAll_of_writeAll result h
    | error fault => cases h

variable (options : Options) (label : String) (source : Source) (out : τ) (unused : Fault)

theorem write_taken :
    ((write options label source out).1 = (keptUpTo none unused options label source).1 ∧
      taken (write options label source out).2 = taken out ++ (keptUpTo none unused options label source).2) ∨
    ((∃ fault, (write options label source out).1 = .error (.write fault)) ∧
      taken (write options label source out).2 <+: taken out ++ (keptUpTo none unused options label source).2) := by
  cases h : Lexer.ofSource options.capacity source with
  | error error => simp [keptUpTo, write_error h, LimitedSink.ofLimit]
  | ok l =>
    rw [keptUpTo_none h, write_eq h]
    exact emitAll_taken _ _ out

theorem write_of_works (hworks : Works out) :
    taken (write options label source out).2 = taken out ++ (keptUpTo none unused options label source).2 ∧
      ∃ out', flush (write options label source out).2 = (.ok (), out') := by
  cases h : Lexer.ofSource options.capacity source with
  | error error =>
    obtain ⟨out', out'', hwrites, hflush⟩ := hworks []
    cases hwrites
    simp [keptUpTo, write_error h, LimitedSink.ofLimit, hflush]
  | ok l =>
    obtain ⟨out', out'', hwrites, hflush⟩ := hworks ((texts options label l.run).map Text.utf8)
    obtain ⟨hemit, htaken⟩ := emitAll_of_writeAll (outcome options l.run) hwrites
    rw [keptUpTo_none h, write_eq h, hemit]
    exact ⟨htaken, out'', hflush⟩

end

end Report

/-! ## The command -/

namespace Request

section
variable {τ : Type} [BufferedSink τ] {options : Options}

theorem runReport_of_not_fits (h : BufferPair.fits options.capacity = false) (label : String) (source : Source)
    (out : τ) : runReport out options label source =
      ⟨101, delivered out, overflowText options.capacity ++ "\n"⟩ := by
  rw [runReport, h, if_neg Bool.false_ne_true]

variable (hfits : BufferPair.fits options.capacity = true)
include hfits

section
variable {label : String} {source : Source} {out out' out'' : τ}

theorem runReport_of_error {e : CommandError} (h : Report.write options label source out = (.error e, out')) :
    runReport out options label source = ⟨1, delivered (flush out').2, "error: " ++ e.message ++ "\n"⟩ := by
  rw [runReport, if_pos hfits, h]
  rfl

theorem runReport_of_lost {summary : Summary} {fault : Fault}
    (h : Report.write options label source out = (.ok summary, out')) (hflush : flush out' = (.error fault, out'')) :
    runReport out options label source =
      ⟨1, delivered out'', "error: " ++ (CommandError.write fault).message ++ "\n"⟩ := by
  rw [runReport, if_pos hfits]
  simp only [h, hflush, errorLine]

theorem runReport_of_flushed {summary : Summary} (h : Report.write options label source out = (.ok summary, out'))
    (hflush : flush out' = (.ok (), out'')) : runReport out options label source = ⟨0, delivered out'', ""⟩ := by
  rw [runReport, if_pos hfits]
  simp only [h, hflush]

end

variable (label : String) (source : Source) (out : τ)

theorem runReport_cases :
    (∃ e, (Report.write options label source out).1 = .error e ∧
      runReport out options label source =
        ⟨1, delivered (flush (Report.write options label source out).2).2, "error: " ++ e.message ++ "\n"⟩) ∨
    (∃ summary fault, (Report.write options label source out).1 = .ok summary ∧
      (flush (Report.write options label source out).2).1 = .error fault ∧
      runReport out options label source =
        ⟨1, delivered (flush (Report.write options label source out).2).2,
          "error: " ++ (CommandError.write fault).message ++ "\n"⟩) ∨
    (∃ summary, (Report.write options label source out).1 = .ok summary ∧
      (flush (Report.write options label source out).2).1 = .ok () ∧
      runReport out options label source =
        ⟨0, delivered (flush (Report.write options label source out).2).2, ""⟩) := by
  cases h : (Report.write options label source out).1 with
  | error e => exact Or.inl ⟨e, rfl, runReport_of_error hfits (Prod.ext h rfl)⟩
  | ok summary =>
    cases hflush : (flush (Report.write options label source out).2).1 with
    | error fault =>
      refine Or.inr (Or.inl ⟨summary, fault, rfl, rfl, ?_⟩)
      exact runReport_of_lost hfits (Prod.ext h rfl) (Prod.ext hflush rfl)
    | ok u =>
      refine Or.inr (Or.inr ⟨summary, rfl, rfl, ?_⟩)
      exact runReport_of_flushed hfits (Prod.ext h rfl) (Prod.ext hflush rfl)

theorem stdout_runReport : (runReport out options label source).stdout =
    delivered (flush (Report.write options label source out).2).2 := by
  rcases runReport_cases hfits label source out with ⟨_, _, h⟩ | ⟨_, _, _, _, h⟩ | ⟨_, _, _, h⟩ <;> rw [h]

variable {out} (hfresh : taken out = []) (unused : Fault)
include hfresh

theorem stdout_prefix :
    (runReport out options label source).stdout <+: (Report.keptUpTo none unused options label source).2 := by
  have hflush := delivered_flush_prefix (Report.write options label source out).2
  rw [stdout_runReport hfits]
  rcases Report.write_taken options label source out unused with ⟨_, htaken⟩ | ⟨_, htaken⟩
  · rw [htaken, hfresh] at hflush
    exact hflush
  · rw [hfresh] at htaken
    exact hflush.trans htaken

theorem stdout_of_works (hworks : Works out) :
    (runReport out options label source).stdout = (Report.keptUpTo none unused options label source).2 := by
  obtain ⟨htaken, out', hflush⟩ := Report.write_of_works options label source out unused hworks
  have hdelivered : delivered out' = taken (Report.write options label source out).2 := flush_ok hflush
  rw [stdout_runReport hfits, hflush, hdelivered, htaken, hfresh]
  rfl

theorem status_runReport_eq_zero_iff :
    (runReport out options label source).status = 0 ↔
      ∃ summary, (Report.write options label source out).1 = .ok summary ∧
        (runReport out options label source).stdout = (Report.keptUpTo none unused options label source).2 := by
  have htaken : ∀ summary, (Report.write options label source out).1 = .ok summary →
      taken (Report.write options label source out).2 = (Report.keptUpTo none unused options label source).2 := by
    intro summary hok
    rcases Report.write_taken options label source out unused with ⟨_, htaken⟩ | ⟨⟨fault, hfault⟩, _⟩
    · rw [htaken, hfresh]
      rfl
    · rw [hok] at hfault
      cases hfault
  rcases runReport_cases hfits label source out with
    ⟨e, he, h⟩ | ⟨summary, fault, hok, hflush, h⟩ | ⟨summary, hok, hflush, h⟩
  · rw [h, he]
    simp
  · -- what the flush has lost is missing
    obtain ⟨lost, hne, hlost⟩ := flush_error (Prod.ext hflush rfl)
    rw [h, ← htaken summary hok, taken, ← hlost]
    simp [hne]
  · have hdelivered := flush_ok (Prod.ext hflush rfl)
    rw [h, ← htaken summary hok, taken, ← hdelivered, hok]
    simp

end

def input (openFile : String → Except Fault Source) (stdin : Source) (path : String) : Except Fault Source :=
  if path = "-" then .ok stdin else openFile path

def label (path : String) : String := if path = "-" then "<stdin>" else path

section
variable {τ : Type} [BufferedSink τ] (openFile : String → Except Fault Source) (stdin : Source) (out : τ)
  (path : String) (args : List String)

def reportOn : Outcome := (ofArgs ("lex" :: path :: args)).executeTo openFile stdin out

/-- All that a report on `path` writes if no write fails, and nothing where no report is begun. -/
def fullReport (unused : Fault) : List Byte :=
  match Options.parse args, input openFile stdin path with
  | .ok options, .ok source => (Report.keptUpTo none unused options (label path) source).2
  | _, _ => []

/-- What goes wrong with a report, the earlier instead of the later. -/
inductive Fails : String → Prop where
  | options {e : OptionError} : Options.parse args = .error e → Fails e.message
  | input {options : Options} {fault : Fault} : Options.parse args = .ok options →
      input openFile stdin path = .error fault → Fails (CommandError.ofOpen path fault).message
  | report {options : Options} {source : Source} {e : CommandError} : Options.parse args = .ok options →
      input openFile stdin path = .ok source → (Report.write options (label path) source out).1 = .error e →
      Fails e.message
  | flush {options : Options} {source : Source} {summary : Summary} {fault : Fault} :
      Options.parse args = .ok options → input openFile stdin path = .ok source →
      (Report.write options (label path) source out).1 = .ok summary →
      (flush (Report.write options (label path) source out).2).1 = .error fault →
      Fails (CommandError.write fault).message

/-- The options are good and the input is there, but no memory can hold halves of this size. -/
def Oversized : Prop :=
  ∃ options source, Options.parse args = .ok options ∧ input openFile stdin path = .ok source ∧
    2 ^ 63 ≤ options.capacity + 1

theorem reportOn_of_bad_options {e : OptionError} (h : Options.parse args = .error e) :
    reportOn openFile stdin out path args = ⟨1, [], "error: " ++ e.message ++ "\n"⟩ := by
  simp [reportOn, ofArgs, ofReportArgs, h, executeTo, errorLine]

section
variable {openFile stdin path args} {options : Options} (h : Options.parse args = .ok options)
include h

theorem reportOn_of_closed {fault : Fault} (hinput : input openFile stdin path = .error fault) :
    reportOn openFile stdin out path args =
      ⟨1, [], "error: " ++ (CommandError.ofOpen path fault).message ++ "\n"⟩ := by
  unfold input at hinput
  by_cases hpath : path = "-"
  · simp [hpath] at hinput
  · rw [if_neg hpath] at hinput
    simp [reportOn, ofArgs, ofReportArgs, h, executeTo, stdinPath, hpath, hinput, errorLine]

theorem reportOn_of_opened {source : Source} (hinput : input openFile stdin path = .ok source) :
    reportOn openFile stdin out path args = runReport out options (label path) source := by
  unfold input at hinput
  unfold label
  by_cases hpath : path = "-"
  · rw [if_pos hpath] at hinput ⊢
    cases hinput
    simp [reportOn, ofArgs, ofReportArgs, h, executeTo, stdinPath, hpath]
  · rw [if_neg hpath] at hinput ⊢
    simp [reportOn, ofArgs, ofReportArgs, h, executeTo, stdinPath, hpath, hinput]

theorem fullReport_of_opened {source : Source} (hinput : input openFile stdin path = .ok source) (unused : Fault) :
    fullReport openFile stdin path args unused = (Report.keptUpTo none unused options (label path) source).2 := by
  simp only [fullReport, h, hinput]

theorem fits_of_not_oversized (hsize : ¬ Oversized openFile stdin path args) {source : Source}
    (hinput : input openFile stdin path = .ok source) : BufferPair.fits options.capacity = true := by
  apply BufferPair.fits_eq_true_iff.mpr
  exact Nat.lt_of_not_le fun hle => hsize ⟨options, source, h, hinput, hle⟩

end

theorem reportOn_of_oversized (h : Oversized openFile stdin path args) (hfresh : taken out = []) :
    (reportOn openFile stdin out path args).status = 101 ∧ (reportOn openFile stdin out path args).stdout = [] := by
  obtain ⟨options, source, hparse, hinput, hsize⟩ := h
  have hfits := BufferPair.fits_eq_false_iff.mpr hsize
  have hnone : delivered out = [] := (List.append_eq_nil_iff.mp hfresh).1
  rw [reportOn_of_opened out hparse hinput, runReport_of_not_fits hfits, hnone]
  exact ⟨rfl, rfl⟩

section
variable (hsize : ¬ Oversized openFile stdin path args)
include hsize

theorem reportOn_cases :
    (∃ message, Fails openFile stdin out path args message ∧
      reportOn openFile stdin out path args = ⟨1, [], "error: " ++ message ++ "\n"⟩ ∧
      (∀ options source, Options.parse args = .ok options → input openFile stdin path ≠ .ok source) ∧
      ∀ unused, fullReport openFile stdin path args unused = []) ∨
    ∃ options source, Options.parse args = .ok options ∧ input openFile stdin path = .ok source ∧
      BufferPair.fits options.capacity = true := by
  cases hparse : Options.parse args with
  | error e =>
    refine Or.inl ⟨e.message, .options hparse, reportOn_of_bad_options openFile stdin out path args hparse, ?_, ?_⟩
    · intro options source h
      cases h
    · intro unused
      simp only [fullReport, hparse]
  | ok options =>
    cases hinput : input openFile stdin path with
    | error fault =>
      refine Or.inl ⟨_, .input hparse hinput, reportOn_of_closed out hparse hinput, ?_, ?_⟩
      · intro options' source _ h
        cases h
      · intro unused
        simp only [fullReport, hparse, hinput]
    | ok source => exact Or.inr ⟨options, source, rfl, rfl, fits_of_not_oversized hparse hsize hinput⟩

theorem stderr_of_fails {message : String} (h : Fails openFile stdin out path args message) :
    (reportOn openFile stdin out path args).stderr = "error: " ++ message ++ "\n" := by
  cases h with
  | options hparse => rw [reportOn_of_bad_options openFile stdin out path args hparse]
  | input hparse hinput => rw [reportOn_of_closed out hparse hinput]
  | report hparse hinput he =>
    have hfits := fits_of_not_oversized hparse hsize hinput
    rw [reportOn_of_opened out hparse hinput, runReport_of_error hfits (Prod.ext he rfl)]
  | flush hparse hinput hok hflush =>
    have hfits := fits_of_not_oversized hparse hsize hinput
    rw [reportOn_of_opened out hparse hinput, runReport_of_lost hfits (Prod.ext hok rfl) (Prod.ext hflush rfl)]

theorem reportOn_ends :
    (reportOn openFile stdin out path args).status = 0 ∧ (reportOn openFile stdin out path args).stderr = "" ∨
      (reportOn openFile stdin out path args).status = 1 ∧ ∃ message, Fails openFile stdin out path args message := by
  rcases reportOn_cases openFile stdin out path args hsize with
    ⟨message, hfails, h, _⟩ | ⟨options, source, hparse, hinput, hfits⟩
  · rw [h]
    exact Or.inr ⟨rfl, message, hfails⟩
  · rw [reportOn_of_opened out hparse hinput]
    rcases runReport_cases hfits (label path) source out with
      ⟨e, he, h⟩ | ⟨_, fault, hok, hflush, h⟩ | ⟨_, _, _, h⟩
    · rw [h]
      exact Or.inr ⟨rfl, _, .report hparse hinput he⟩
    · rw [h]
      exact Or.inr ⟨rfl, _, .flush hparse hinput hok hflush⟩
    · rw [h]
      exact Or.inl ⟨rfl, rfl⟩

variable {out} (hfresh : taken out = []) (unused : Fault)
include hfresh

theorem status_reportOn_eq_zero_iff :
    (reportOn openFile stdin out path args).status = 0 ↔
      ∃ options source summary, Options.parse args = .ok options ∧ input openFile stdin path = .ok source ∧
        (Report.write options (label path) source out).1 = .ok summary ∧
        (reportOn openFile stdin out path args).stdout = fullReport openFile stdin path args unused := by
  rcases reportOn_cases openFile stdin out path args hsize with
    ⟨_, _, h, hclosed, _⟩ | ⟨options, source, hparse, hinput, hfits⟩
  · rw [h]
    constructor
    · intro hzero
      cases hzero
    · intro hopen
      obtain ⟨options, source, _, hparse, hinput, _⟩ := hopen
      exact absurd hinput (hclosed options source hparse)
  · rw [reportOn_of_opened out hparse hinput, fullReport_of_opened hparse hinput unused,
      status_runReport_eq_zero_iff hfits (label path) source hfresh unused]
    constructor
    · intro hzero
      obtain ⟨summary, hok, hstdout⟩ := hzero
      exact ⟨options, source, summary, hparse, hinput, hok, hstdout⟩
    · intro hopen
      obtain ⟨options', source', summary, hparse', hinput', hok, hstdout⟩ := hopen
      rw [hparse] at hparse'
      rw [hinput] at hinput'
      cases hparse'
      cases hinput'
      exact ⟨summary, hok, hstdout⟩

theorem stdout_reportOn_prefix :
    (reportOn openFile stdin out path args).stdout <+: fullReport openFile stdin path args unused := by
  rcases reportOn_cases openFile stdin out path args hsize with
    ⟨_, _, h, _, _⟩ | ⟨options, source, hparse, hinput, hfits⟩
  · rw [h]
    exact List.nil_prefix
  · rw [reportOn_of_opened out hparse hinput, fullReport_of_opened hparse hinput unused]
    exact stdout_prefix hfits (label path) source hfresh unused

theorem stdout_reportOn_of_works (hworks : Works out) :
    (reportOn openFile stdin out path args).stdout = fullReport openFile stdin path args unused := by
  rcases reportOn_cases openFile stdin out path args hsize with
    ⟨_, _, h, _, hempty⟩ | ⟨options, source, hparse, hinput, hfits⟩
  · rw [h, hempty]
  · rw [reportOn_of_opened out hparse hinput, fullReport_of_opened hparse hinput unused]
    exact stdout_of_works hfits (label path) source hfresh unused hworks

end

/-- A report through a sink that nothing was written to before, whatever the sink does: the status is 0 just if the
options are read, the input is opened, the report comes to its end and all of it comes through. What comes through is
a front of the report, and all of it where the sink works, also of a report that ends in an error. If
something goes wrong, the status is 1 and one line tells what: an error of the report rather than a failure to flush
what it had written, and bad options whatever the input is. Only where the halves would be larger than memory can
be, the program ends with the status 101 and without a report. -/
theorem exit_status_truthful (hfresh : taken out = []) (unused : Fault) :
    (¬ Oversized openFile stdin path args →
      ((reportOn openFile stdin out path args).status = 0 ↔
          ∃ options source summary, Options.parse args = .ok options ∧ input openFile stdin path = .ok source ∧
            (Report.write options (label path) source out).1 = .ok summary ∧
            (reportOn openFile stdin out path args).stdout = fullReport openFile stdin path args unused) ∧
        (reportOn openFile stdin out path args).stdout <+: fullReport openFile stdin path args unused ∧
        (Works out → (reportOn openFile stdin out path args).stdout = fullReport openFile stdin path args unused) ∧
        ((reportOn openFile stdin out path args).status = 0 ∧ (reportOn openFile stdin out path args).stderr = "" ∨
          (reportOn openFile stdin out path args).status = 1 ∧ ∃ message, Fails openFile stdin out path args message) ∧
        ∀ message, Fails openFile stdin out path args message →
          (reportOn openFile stdin out path args).stderr = "error: " ++ message ++ "\n") ∧
      (∀ e, Options.parse args = .error e → ∀ (openFile' : String → Except Fault Source) (stdin' : Source) (out' : τ),
        reportOn openFile' stdin' out' path args = ⟨1, [], "error: " ++ e.message ++ "\n"⟩) ∧
      (Oversized openFile stdin path args →
        (reportOn openFile stdin out path args).status = 101 ∧
          (reportOn openFile stdin out path args).stdout = []) := by
  refine ⟨fun hsize => ⟨status_reportOn_eq_zero_iff openFile stdin path args hsize hfresh unused,
    stdout_reportOn_prefix openFile stdin path args hsize hfresh unused,
    stdout_reportOn_of_works openFile stdin path args hsize hfresh unused,
    reportOn_ends openFile stdin out path args hsize, ?_⟩, ?_, ?_⟩
  · intro message h
    exact stderr_of_fails openFile stdin out path args hsize h
  · intro e h openFile' stdin' out'
    exact reportOn_of_bad_options openFile' stdin' out' path args h
  · intro hsize
    exact reportOn_of_oversized openFile stdin out path args hsize hfresh

end

theorem exit_status_truthful_of_three_sinks :
    (reportOn (fun _ => .error FileTree.notFound) (.ofBytes [97]) (BufferedOutput.ofDevice none) "-" []).stdout =
        fullReport (fun _ => .error FileTree.notFound) (.ofBytes [97]) "-" [] ⟨.other, ""⟩ ∧
      (reportOn (fun _ => .error FileTree.notFound) (.ofBytes [97])
        (LimitedSink.ofLimit (some 25) ⟨.storageFull, "full"⟩) "-" []).stdout <+:
          fullReport (fun _ => .error FileTree.notFound) (.ofBytes [97]) "-" [] ⟨.other, ""⟩ ∧
      (reportOn (fun _ => .error FileTree.notFound) (.ofBytes [97, 59])
        (BufferedOutput.ofDevice (some ⟨.storageFull, "full"⟩)) "-" []).stderr =
          "error: 1:2: unexpected ';' at start of token, expected a letter, digit, relational operator or whitespace\n" ∧
      (reportOn (fun _ => .error FileTree.notFound) (.ofBytes [97]) (BufferedOutput.ofDevice none) "-"
        ["--buffer-size=18446744073709551615"]).stdout = [] := by
  have hsize : ∀ stdin, ¬ Oversized (fun _ => .error FileTree.notFound) stdin "-" [] := by
    rintro stdin ⟨options, source, hparse, _, hle⟩
    have hinitial : Options.parse [] = .ok .initial := rfl
    rw [hinitial] at hparse
    cases hparse
    exact absurd hle (by decide)
  have hlarge : Oversized (fun _ => .error FileTree.notFound) (.ofBytes [97]) "-"
      ["--buffer-size=18446744073709551615"] :=
    ⟨⟨18446744073709551615, false⟩, .ofBytes [97], by decide +kernel, rfl, by decide⟩
  have hworks : Works (BufferedOutput.ofDevice none) := BufferedOutput.works_of_unbroken rfl
  have herror : (Report.write .initial (label "-") (.ofBytes [97, 59])
      (BufferedOutput.ofDevice (some ⟨.storageFull, "full"⟩))).1 =
        .error (.lex (.unexpectedChar ';' Lexer.tokenStart ⟨1, .clamp 1, .clamp 2⟩)) := by decide +kernel
  obtain ⟨_, _, hall, _⟩ := (exit_status_truthful (fun _ => .error FileTree.notFound) (.ofBytes [97])
    (BufferedOutput.ofDevice none) "-" [] rfl ⟨.other, ""⟩).1 (hsize _)
  obtain ⟨_, hfront, _⟩ := (exit_status_truthful (fun _ => .error FileTree.notFound) (.ofBytes [97])
    (LimitedSink.ofLimit (some 25) ⟨.storageFull, "full"⟩) "-" [] rfl ⟨.other, ""⟩).1 (hsize _)
  obtain ⟨_, _, _, _, hfails⟩ := (exit_status_truthful (fun _ => .error FileTree.notFound) (.ofBytes [97, 59])
    (BufferedOutput.ofDevice (some ⟨.storageFull, "full"⟩)) "-" [] rfl ⟨.other, ""⟩).1 (hsize _)
  obtain ⟨_, _, hnone⟩ := exit_status_truthful (fun _ => .error FileTree.notFound) (.ofBytes [97])
    (BufferedOutput.ofDevice none) "-" ["--buffer-size=18446744073709551615"] rfl ⟨.other, ""⟩
  exact ⟨hall hworks, hfront, (hfails _ (.report rfl rfl herror)).trans (by decide +kernel), (hnone hlarge).2⟩

/-- The options are good, the input is there and the device works, but the status is neither 0 nor 1. -/
theorem status_of_greatest_size :
    (reportOn (fun _ => .error FileTree.notFound) (.ofBytes [97]) (BufferedOutput.ofDevice none) "-"
      ["--buffer-size=18446744073709551615"]).status = 101 := by
  decide +kernel

end Request

end StreamLexer
