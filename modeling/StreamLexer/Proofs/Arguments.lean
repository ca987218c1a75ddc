import Mathlib.Data.List.Basic
import Mathlib.Data.Nat.Digits.Defs
import StreamLexer.Proofs.Diagnosis
import StreamLexer.Proofs.Listing

/-!
# What arguments ask for

An argument asks for layout to be shown, or for a size by a decimal numeral; every other argument is bad, and it
is bad wherever it stands. A list of arguments is read from left to right: of the sizes the last one counts,
and the first bad argument decides the error. A size that was asked for is never 0, so no report under such options
lacks a buffer.
-/

namespace StreamLexer

namespace Text

def decimal (digits : List Char) : Nat := Nat.ofDigits 10 (digits.reverse.map fun c => c.toNat - '0'.toNat)

/-- Digits, with or without a `+` before them, that have the value `v`. -/
def Numeral (cs : List Char) (v : Nat) : Prop :=
  ∃ digits, (cs = digits ∨ cs = '+' :: digits) ∧ digits ≠ [] ∧ (∀ c ∈ digits, c.isDigit = true) ∧ decimal digits = v

theorem decimal_cons (c : Char) (cs : List Char) :
    decimal (c :: cs) = (c.toNat - '0'.toNat) * 10 ^ cs.length + decimal cs := by
  unfold decimal
  rw [List.reverse_cons, List.map_append, Nat.ofDigits_append]
  simp [Nat.add_comm, Nat.mul_comm]

theorem readDigits_eq_ok_iff {limit v : Nat} : ∀ {cs : List Char} {value : Nat}, value ≤ limit →
    (readDigits limit value cs = .ok v ↔
      (∀ c ∈ cs, c.isDigit = true) ∧ value * 10 ^ cs.length + decimal cs = v ∧ v ≤ limit)
  | [], value, hvalue => by
    simp [readDigits, decimal]
    omega
  | c :: cs, value, hvalue => by
    rw [readDigits, digit?, decimal_cons]
    by_cases hc : c.isDigit = true
    · have hsum : value * 10 ^ (cs.length + 1) + ((c.toNat - '0'.toNat) * 10 ^ cs.length + decimal cs) =
          (value * 10 + (c.toNat - '0'.toNat)) * 10 ^ cs.length + decimal cs := by ring
      simp only [hc, if_true, List.length_cons, hsum]
      by_cases hlarge : limit < value * 10 + (c.toNat - '0'.toNat)
      -- further digits would not make the value smaller
      · have hpow : 0 < 10 ^ cs.length := Nat.pow_pos (by decide)
        have hle := Nat.le_mul_of_pos_right (value * 10 + (c.toNat - '0'.toNat)) hpow
        simp only [hlarge, if_true]
        constructor
        · intro h
          cases h
        · intro h
          omega
      · simp only [hlarge, if_false]
        rw [readDigits_eq_ok_iff (Nat.le_of_not_lt hlarge)]
        simp [hc]
    · simp [hc]

theorem numeral_nil (v : Nat) : ¬ Numeral [] v := by
  simp [Numeral]

theorem numeral_plus_iff {cs : List Char} {v : Nat} :
    Numeral ('+' :: cs) v ↔ cs ≠ [] ∧ (∀ c ∈ cs, c.isDigit = true) ∧ decimal cs = v := by
  constructor
  · intro h
    obtain ⟨digits, hcs | hcs, hne, hd, hv⟩ := h
    · have hplus := hd '+' (by rw [← hcs]; exact List.mem_cons_self)
      exact absurd hplus (by decide)
    · cases hcs
      exact ⟨hne, hd, hv⟩
  · intro h
    exact ⟨cs, Or.inr rfl, h⟩

theorem numeral_cons_iff {c : Char} {cs : List Char} {v : Nat} (hc : c ≠ '+') :
    Numeral (c :: cs) v ↔ (∀ d ∈ c :: cs, d.isDigit = true) ∧ decimal (c :: cs) = v := by
  constructor
  · intro h
    obtain ⟨digits, hcs | hcs, _, hd, hv⟩ := h
    · subst hcs
      exact ⟨hd, hv⟩
    · cases hcs
      exact absurd rfl hc
  · intro h
    exact ⟨c :: cs, Or.inl rfl, List.cons_ne_nil c cs, h⟩

theorem readNumeral_cons {limit : Nat} {c : Char} {cs : List Char} (hc : c ≠ '+') :
    readNumeral limit (c :: cs) = readDigits limit 0 (c :: cs) := by
  unfold readNumeral
  split <;> simp_all

theorem readNumeral_eq_ok_iff {limit v : Nat} {cs : List Char} :
    readNumeral limit cs = .ok v ↔ Numeral cs v ∧ v ≤ limit := by
  cases cs with
  | nil => simp [readNumeral, numeral_nil]
  | cons c cs =>
    by_cases hc : c = '+'
    · subst hc
      rw [numeral_plus_iff]
      cases cs with
      | nil => simp [readNumeral]
      | cons d ds => simp [readNumeral, readDigits_eq_ok_iff (Nat.zero_le limit), and_assoc]
    · rw [numeral_cons_iff hc, readNumeral_cons hc, readDigits_eq_ok_iff (Nat.zero_le limit), Nat.zero_mul,
        Nat.zero_add, and_assoc]

theorem Numeral.unique {cs : List Char} {v v' : Nat} (h : Numeral cs v) (h' : Numeral cs v') : v = v' := by
  have hread := readNumeral_eq_ok_iff.mpr ⟨h, Nat.le_max_left v v'⟩
  rw [readNumeral_eq_ok_iff.mpr ⟨h', Nat.le_max_right v v'⟩] at hread
  cases hread
  rfl

end Text

namespace Options

/-- A size is asked for by a numeral from 1 to the greatest number of 64 bits. -/
def AsksSize (arg : String) (v : Nat) : Prop :=
  ∃ size, arg = "--buffer-size=" ++ size ∧ Text.Numeral size.toList v ∧ 1 ≤ v ∧ v < 2 ^ 64

def Good (arg : String) : Prop := arg = "--show-whitespace" ∨ ∃ v, AsksSize arg v

def isSize (arg : String) : Bool := sizeFlag.toList.isPrefixOf arg.toList

/-! ## One argument -/

theorem isPrefixOf?_eq_some_iff {arg : String} {size : List Char} :
    sizeFlag.toList.isPrefixOf? arg.toList = some size ↔ arg = sizeFlag ++ String.ofList size := by
  rw [List.isPrefixOf?_eq_some_iff_append_eq, ← String.toList_inj, String.toList_append, String.toList_ofList]
  exact eq_comm

theorem asksSize_append_iff {size : List Char} {v : Nat} :
    AsksSize (sizeFlag ++ String.ofList size) v ↔ Text.Numeral size v ∧ 1 ≤ v ∧ v < 2 ^ 64 := by
  constructor
  · intro h
    obtain ⟨size', harg, hv⟩ := h
    have hlist : sizeFlag.toList ++ size = sizeFlag.toList ++ size'.toList := by
      simpa [sizeFlag] using congrArg String.toList harg
    rw [List.append_cancel_left hlist]
    exact hv
  · intro h
    exact ⟨String.ofList size, rfl, by rwa [String.toList_ofList]⟩

theorem AsksSize.unique {arg : String} {v v' : Nat} (h : AsksSize arg v) (h' : AsksSize arg v') : v = v' := by
  obtain ⟨size, rfl, hv, _⟩ := h
  have happend : AsksSize (sizeFlag ++ String.ofList size.toList) v' := by
    rw [String.ofList_toList]
    exact h'
  exact hv.unique (asksSize_append_iff.mp happend).1

theorem AsksSize.bounds {arg : String} {v : Nat} (h : AsksSize arg v) : 1 ≤ v ∧ v < 2 ^ 64 := by
  obtain ⟨_, _, _, hv⟩ := h
  exact hv

theorem withSize_cases (size : List Char) :
    (∃ v, (Text.Numeral size v ∧ 1 ≤ v ∧ v < 2 ^ 64) ∧ ∀ o : Options, o.withSize size = .ok { o with capacity := v }) ∨
    ((∀ v, ¬ (Text.Numeral size v ∧ 1 ≤ v ∧ v < 2 ^ 64)) ∧ ∃ e, ∀ o : Options, o.withSize size = .error e) := by
  have hmax : maxCapacity = 2 ^ 64 - 1 := rfl
  have hread : ∀ v, Text.Numeral size v ∧ 1 ≤ v ∧ v < 2 ^ 64 → Text.readNumeral maxCapacity size = .ok v := by
    intro v hv
    exact Text.readNumeral_eq_ok_iff.mpr ⟨hv.1, by omega⟩
  cases hr : Text.readNumeral maxCapacity size with
  | error reason =>
    refine Or.inr ⟨?_, .badSize (String.ofList size) reason, fun o => by simp only [withSize, hr]⟩
    intro v hv
    rw [hread v hv] at hr
    cases hr
  | ok v =>
    by_cases hv : v = 0
    · subst hv
      refine Or.inr ⟨?_, .zeroSize, fun o => by simp only [withSize, hr]⟩
      intro v hv
      rw [hread v hv] at hr
      cases hr
      omega
    · have hnumeral := Text.readNumeral_eq_ok_iff.mp hr
      refine Or.inl ⟨v, ⟨hnumeral.1, by omega, by omega⟩, ?_⟩
      intro o
      simp [withSize, hr]

/-- What an argument can do: show layout, set the size, or be bad, and that whatever the options were before. -/
theorem apply_cases (arg : String) :
    (arg = "--show-whitespace" ∧ isSize arg = false ∧
      ∀ o : Options, o.apply arg = .ok { o with showWhitespace := true }) ∨
    (∃ v, AsksSize arg v ∧ isSize arg = true ∧ ∀ o : Options, o.apply arg = .ok { o with capacity := v }) ∨
    (¬ Good arg ∧ ∃ e, ∀ o : Options, o.apply arg = .error e) := by
  have hsize := List.isSome_isPrefixOf?_eq_isPrefixOf sizeFlag.toList arg.toList
  cases hp : sizeFlag.toList.isPrefixOf? arg.toList with
  | some size =>
    rw [hp] at hsize
    obtain rfl := isPrefixOf?_eq_some_iff.mp hp
    rcases withSize_cases size with ⟨v, hv, happly⟩ | ⟨hbad, e, happly⟩
    · refine Or.inr (Or.inl ⟨v, asksSize_append_iff.mpr hv, hsize.symm, ?_⟩)
      intro o
      simp only [apply, hp, happly o]
    · refine Or.inr (Or.inr ⟨?_, e, fun o => by simp only [apply, hp, happly o]⟩)
      intro hgood
      rcases hgood with hflag | ⟨v, hv⟩
      · rw [hflag] at hsize
        cases hsize
      · exact hbad v (asksSize_append_iff.mp hv)
  | none =>
    rw [hp] at hsize
    by_cases hflag : arg = whitespaceFlag
    · refine Or.inl ⟨hflag, hsize.symm, ?_⟩
      intro o
      simp only [apply, hp, if_pos hflag]
    · refine Or.inr (Or.inr ⟨?_, .unknown arg, fun o => by simp only [apply, hp, if_neg hflag]⟩)
      intro hgood
      rcases hgood with hflag' | ⟨v, size, harg, _⟩
      · exact hflag hflag'
      · rw [isPrefixOf?_eq_some_iff.mpr (by rw [String.ofList_toList]; exact harg)] at hp
        cases hp

/-! ## Lists of arguments -/

theorem applyAll_append : ∀ {before : List String}, (∀ a ∈ before, Good a) → ∀ o : Options,
    ∃ o', ∀ rest, o.applyAll (before ++ rest) = applyAll o' rest
  | [], _, o => ⟨o, fun _ => rfl⟩
  | arg :: before, hgood, o => by
    obtain ⟨hfirst, hrest⟩ := List.forall_mem_cons.mp hgood
    have hstep : ∃ o', o.apply arg = .ok o' := by
      rcases apply_cases arg with ⟨_, _, happly⟩ | ⟨v, _, _, happly⟩ | ⟨hbad, _⟩
      · exact ⟨_, happly o⟩
      · exact ⟨_, happly o⟩
      · exact absurd hfirst hbad
    obtain ⟨o₁, happly⟩ := hstep
    obtain ⟨o₂, hall⟩ := applyAll_append hrest o₁
    refine ⟨o₂, ?_⟩
    intro rest
    rw [← hall rest]
    simp only [List.cons_append, applyAll, happly]

theorem exists_parse {args : List String} (h : ∀ a ∈ args, Good a) : ∃ o, parse args = .ok o := by
  obtain ⟨o, ho⟩ := applyAll_append h initial
  have hnil := ho []
  rw [List.append_nil] at hnil
  exact ⟨o, hnil⟩

theorem good_or_first_bad : ∀ args : List String, (∀ a ∈ args, Good a) ∨
    ∃ before bad after, args = before ++ bad :: after ∧ (∀ a ∈ before, Good a) ∧ ¬ Good bad
  | [] => by simp
  | arg :: args => by
    by_cases hgood : Good arg
    · rcases good_or_first_bad args with hall | ⟨before, bad, after, hargs, hbefore, hbad⟩
      · exact Or.inl (List.forall_mem_cons.mpr ⟨hgood, hall⟩)
      · refine Or.inr ⟨arg :: before, bad, after, ?_, List.forall_mem_cons.mpr ⟨hgood, hbefore⟩, hbad⟩
        rw [hargs, List.cons_append]
    · exact Or.inr ⟨[], arg, args, rfl, by simp, hgood⟩

theorem parse_of_first_bad {before : List String} {bad : String} (hbefore : ∀ a ∈ before, Good a)
    (hbad : ¬ Good bad) (after : List String) :
    ∃ e, parse (before ++ bad :: after) = .error e ∧ parse [bad] = .error e := by
  obtain ⟨o, ho⟩ := applyAll_append hbefore initial
  rcases apply_cases bad with ⟨hflag, _⟩ | ⟨v, hv, _⟩ | ⟨_, e, happly⟩
  · exact absurd (Or.inl hflag) hbad
  · exact absurd (Or.inr ⟨v, hv⟩) hbad
  · refine ⟨e, ?_, ?_⟩
    · rw [parse, ho]
      simp only [applyAll, happly]
    · simp only [parse, applyAll, happly]

theorem parse_eq_error_iff (args : List String) (e : OptionError) :
    parse args = .error e ↔ ∃ before bad after, args = before ++ bad :: after ∧ (∀ a ∈ before, Good a) ∧
      ¬ Good bad ∧ parse [bad] = .error e := by
  constructor
  · intro h
    rcases good_or_first_bad args with hall | ⟨before, bad, after, hargs, hbefore, hbad⟩
    · obtain ⟨o, ho⟩ := exists_parse hall
      rw [ho] at h
      cases h
    · obtain ⟨e', hall, halone⟩ := parse_of_first_bad hbefore hbad after
      rw [← hargs, h] at hall
      cases hall
      exact ⟨before, bad, after, hargs, hbefore, hbad, halone⟩
  · intro h
    obtain ⟨before, bad, after, hargs, hbefore, hbad, halone⟩ := h
    obtain ⟨e', hall, halone'⟩ := parse_of_first_bad hbefore hbad after
    rw [halone] at halone'
    cases halone'
    rw [hargs, hall]

theorem parse_ok_iff (args : List String) : (∃ o, parse args = .ok o) ↔ ∀ a ∈ args, Good a := by
  constructor
  · intro h
    obtain ⟨o, ho⟩ := h
    rcases good_or_first_bad args with hall | ⟨before, bad, after, hargs, hbefore, hbad⟩
    · exact hall
    · obtain ⟨e, hall, _⟩ := parse_of_first_bad hbefore hbad after
      rw [← hargs, ho] at hall
      cases hall
  · exact exists_parse

/-- The size that a list of arguments asks for: that of the last argument that asks for one. -/
def LastSize (args : List String) (default v : Nat) : Prop :=
  match (args.filter isSize).getLast? with
  | some arg => AsksSize arg v
  | none => v = default

theorem LastSize.unique {args : List String} {default v v' : Nat} (h : LastSize args default v)
    (h' : LastSize args default v') : v = v' := by
  unfold LastSize at h h'
  cases hlast : (args.filter isSize).getLast? with
  | some arg =>
    rw [hlast] at h h'
    exact AsksSize.unique h h'
  | none =>
    rw [hlast] at h h'
    exact h.trans h'.symm

theorem LastSize.bounds {args : List String} {default v : Nat} (h : LastSize args default v)
    (hdefault : 1 ≤ default ∧ default < 2 ^ 64) : 1 ≤ v ∧ v < 2 ^ 64 := by
  unfold LastSize at h
  cases hlast : (args.filter isSize).getLast? with
  | some arg =>
    rw [hlast] at h
    exact AsksSize.bounds h
  | none =>
    rw [hlast] at h
    rw [show v = default from h]
    exact hdefault

theorem applyAll_ok : ∀ {args : List String} {o o' : Options}, o.applyAll args = .ok o' →
    (o'.showWhitespace = true ↔ o.showWhitespace = true ∨ "--show-whitespace" ∈ args) ∧
      LastSize args o.capacity o'.capacity
  | [], o, o', h => by
    cases h
    exact ⟨by simp, rfl⟩
  | arg :: args, o, o', h => by
    rw [applyAll] at h
    unfold LastSize
    rcases apply_cases arg with ⟨hflag, hsize, happly⟩ | ⟨v, hv, hsize, happly⟩ | ⟨_, e, happly⟩
    · rw [happly o] at h
      obtain ⟨hshow, hlast⟩ := applyAll_ok h
      refine ⟨by simp [hshow, hflag], ?_⟩
      rw [List.filter_cons_of_neg (by simp [hsize])]
      exact hlast
    · rw [happly o] at h
      obtain ⟨hshow, hlast⟩ := applyAll_ok h
      have hne : "--show-whitespace" ≠ arg := by
        intro hflag
        rw [← hflag] at hsize
        exact absurd hsize (by decide)
      refine ⟨by simp [hshow, hne], ?_⟩
      unfold LastSize at hlast
      rw [List.filter_cons_of_pos hsize, List.getLast?_cons]
      cases hfilter : (args.filter isSize).getLast? with
      | some last =>
        rw [hfilter] at hlast
        exact hlast
      -- no size follows, so this one stays
      | none =>
        rw [hfilter] at hlast
        have hcapacity : o'.capacity = v := hlast
        simpa [hcapacity] using hv
    · rw [happly o] at h
      cases h

theorem parse_ok {args : List String} {o : Options} (h : parse args = .ok o) :
    (o.showWhitespace = true ↔ "--show-whitespace" ∈ args) ∧ LastSize args 4096 o.capacity := by
  obtain ⟨hshow, hsize⟩ := applyAll_ok h
  refine ⟨?_, hsize⟩
  rw [hshow]
  simp [initial]

theorem parse_of_perm {args args' : List String} {o : Options} (h : parse args = .ok o) (hperm : args'.Perm args)
    (hlast : (args'.filter isSize).getLast? = (args.filter isSize).getLast?) : parse args' = .ok o := by
  have hgood := (parse_ok_iff args).mp ⟨o, h⟩
  obtain ⟨o', h'⟩ := exists_parse fun a ha => hgood a (hperm.mem_iff.mp ha)
  obtain ⟨hshow, hsize⟩ := parse_ok h
  obtain ⟨hshow', hsize'⟩ := parse_ok h'
  have hcapacity : o'.capacity = o.capacity := by
    unfold LastSize at hsize'
    rw [hlast] at hsize'
    exact LastSize.unique hsize' hsize
  have hwhitespace : o'.showWhitespace = o.showWhitespace := by
    rw [Bool.eq_iff_iff, hshow', hshow, hperm.mem_iff]
  rw [h']
  cases o
  cases o'
  simp_all

end Options

/-! ## Reports under these options -/

theorem Lexer.result_ne_zeroCapacity {capacity : Nat} {source : Source} {l : Lexer BufferPair}
    (h : ofSource capacity source = .ok l) (n : Nat) : l.result n ≠ .error (.input .zeroCapacity) := by
  intro he
  cases hp : (l.after n).poisoned with
  | true =>
    have hpoisoned := result_of_poisoned hp 0
    rw [Nat.add_zero, he] at hpoisoned
    cases hpoisoned
  | false =>
    obtain ⟨hrest, hflat, _⟩ := atRest_after h hp
    have he : (l.after n).nextLocated.1 = .error (.input .zeroCapacity) := he
    cases hrest.call hflat with
    | tooLong _ hl _ => rw [he] at hl; cases hl
    | fault _ hl _ => rw [he] at hl; cases hl
    | row _ hl _ _ _ _ => rw [he] at hl; cases hl
    -- what stops both lexers is no fault of the buffer
    | error _ hl hm _ _ =>
      rw [he] at hl
      cases hl
      obtain ⟨_, _, hbyte⟩ := result_ofBytes_input_error hm
      cases hbyte

namespace Report

theorem emitAll_eq_error {τ α : Type} [Sink τ] {result : Except CommandError α} {e : CommandError} :
    ∀ {texts : List String} {out : τ}, (emitAll result out texts).1 = .error e →
      result = .error e ∨ ∃ fault, e = .write fault
  | [], _, h => Or.inl h
  | text :: texts, out, h => by
    simp only [emitAll, emit] at h
    rcases hw : Sink.write out (Text.utf8 text) with ⟨r, out'⟩
    rw [hw] at h
    cases r with
    | ok u => exact emitAll_eq_error h
    | error fault =>
      cases h
      exact Or.inr ⟨fault, rfl⟩

theorem write_ne_zeroCapacity {τ : Type} [Sink τ] {options : Options} (hcap : 1 ≤ options.capacity) (label : String)
    (source : Source) (out : τ) : (write options label source out).1 ≠ .error (.lex (.input .zeroCapacity)) := by
  intro h
  cases hl : Lexer.ofSource options.capacity source with
  | error error =>
    obtain ⟨fault, _, rfl⟩ := Lexer.ofSource_error hcap hl
    rw [write_error hl] at h
    cases h
  | ok l =>
    rw [write_eq hl] at h
    rcases emitAll_eq_error h with houtcome | ⟨fault, he⟩
    · have hfinal := (Lexer.runs_run l).final
      unfold outcome at houtcome
      cases hending : l.run.ending with
      | eof start =>
        rw [hending] at houtcome
        cases houtcome
      | failed error =>
        rw [hending] at houtcome hfinal
        cases houtcome
        exact Lexer.result_ne_zeroCapacity hl _ hfinal
    · cases he

end Report

namespace Options

/-- Arguments are read if every one of them is good, and then layout is shown where one of them says so and the
size is that of the last one that asks for a size. Such a size is good for any report, and the order of the arguments
does not matter beyond that. Otherwise the error is that of the first bad argument on its own. -/
theorem parse_reads_arguments (args : List String) :
    ((∃ o, parse args = .ok o) ↔ ∀ arg ∈ args, Good arg) ∧
      (∀ o, parse args = .ok o →
        (o.showWhitespace = true ↔ "--show-whitespace" ∈ args) ∧ LastSize args 4096 o.capacity ∧
        1 ≤ o.capacity ∧ o.capacity < 2 ^ 64 ∧
        (∀ (τ : Type) [Sink τ] (label : String) (source : Source) (out : τ),
          (Report.write o label source out).1 ≠ .error (.lex (.input .zeroCapacity))) ∧
        ∀ args', args'.Perm args → (args'.filter isSize).getLast? = (args.filter isSize).getLast? →
          parse args' = .ok o) ∧
      ∀ e, parse args = .error e ↔ ∃ before bad after, args = before ++ bad :: after ∧
        (∀ arg ∈ before, Good arg) ∧ ¬ Good bad ∧ parse [bad] = .error e := by
  refine ⟨parse_ok_iff args, ?_, parse_eq_error_iff args⟩
  intro o ho
  obtain ⟨hshow, hsize⟩ := parse_ok ho
  obtain ⟨hpos, hlt⟩ := hsize.bounds (by decide)
  refine ⟨hshow, hsize, hpos, hlt, ?_, ?_⟩
  · intro τ _ label source out
    exact Report.write_ne_zeroCapacity hpos label source out
  · intro args' hperm hlast
    exact parse_of_perm ho hperm hlast

theorem parse_reads_arguments_at_bound :
    parse ["--buffer-size=7", "--show-whitespace", "--buffer-size=+0018446744073709551615"] =
        .ok ⟨18446744073709551615, true⟩ ∧
      parse ["--show-whitespace", "--buffer-size=7", "--buffer-size=+0018446744073709551615"] =
        .ok ⟨18446744073709551615, true⟩ ∧
      parse ["--show-whitespace", "--buffer-size=18446744073709551616", "--verbose"] =
        .error (.badSize "18446744073709551616" .tooLarge) ∧
      ∃ bad ∈ ["--show-whitespace", "--buffer-size=18446744073709551616", "--verbose"],
        ¬ Good bad ∧ parse [bad] = .error (.badSize "18446744073709551616" .tooLarge) := by
  have hread : parse ["--buffer-size=7", "--show-whitespace", "--buffer-size=+0018446744073709551615"] =
    .ok ⟨18446744073709551615, true⟩ := by decide +kernel
  have hfail : parse ["--show-whitespace", "--buffer-size=18446744073709551616", "--verbose"] =
    .error (.badSize "18446744073709551616" .tooLarge) := by decide +kernel
  obtain ⟨_, hok, _⟩ :=
    parse_reads_arguments ["--buffer-size=7", "--show-whitespace", "--buffer-size=+0018446744073709551615"]
  obtain ⟨_, _, _, _, _, hperm⟩ := hok _ hread
  refine ⟨hread, hperm _ (.swap _ _ _) (by decide +kernel), hfail, ?_⟩
  obtain ⟨before, bad, after, hargs, _, hbad, halone⟩ :=
    ((parse_reads_arguments ["--show-whitespace", "--buffer-size=18446744073709551616", "--verbose"]).2.2 _).mp hfail
  refine ⟨bad, ?_, hbad, halone⟩
  rw [hargs]
  exact List.mem_append_right before List.mem_cons_self

end Options

end StreamLexer
