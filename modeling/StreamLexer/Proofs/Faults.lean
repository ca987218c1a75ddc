import StreamLexer.Proofs.Transparency

/-!
# A fault cuts a run short

Take every fatal failure out of the script of a source. The lexer over what is left gives out all
tokens of the stream. The lexer over the source itself gives out the same ones, and ends the same
way, or it gives out the first few of them and then the first fatal failure of the script.
-/

namespace StreamLexer

namespace Source

def withoutFatals (s : Source) : Source :=
  { s with script := s.script.filter fun
      | .fail fault => !fault.isFatal
      | _ => true }

theorem pending_withoutFatals (s : Source) : s.withoutFatals.pending = s.pending := by
  have hdelivery : ∀ script : List Event, delivery (script.filter fun
      | .fail fault => !fault.isFatal
      | _ => true) = delivery script := by
    intro script
    induction script with
    | nil => rfl
    | cons event rest ih =>
      cases event with
      | close => rfl
      | fail fault =>
        by_cases hf : fault.isFatal = true
        · simpa [hf, delivery] using ih
        · simpa [hf, delivery] using ih
      | data bytes =>
        cases bytes with
        | nil => rfl
        | cons b bytes => exact congrArg (b :: bytes ++ ·) ih
  simp only [pending, withoutFatals, hdelivery]

theorem reliable_withoutFatals (s : Source) : s.withoutFatals.Reliable := by
  apply List.filterMap_eq_nil_iff.mpr
  intro event hmem
  obtain ⟨_, hkept⟩ := List.mem_filter.mp hmem
  cases event with
  | close => rfl
  | data bytes => rfl
  | fail fault =>
    have hf : fault.isFatal = false := by simpa using hkept
    simp [hf]

end Source

namespace Lexer

/-! ## One round of a run -/

section
variable {σ : Type} [Cursor σ] {seen : Array Located} {l : Lexer σ}

theorem runFrom_row {row : Located} (h : l.nextLocated.1 = .ok row) (ht : row.token ≠ .eof) :
    runFrom seen l = runFrom (seen.push row) l.nextLocated.2 := by
  rw [runFrom]
  split <;> simp_all

theorem runFrom_eof {row : Located} (h : l.nextLocated.1 = .ok row) (ht : row.token = .eof) :
    runFrom seen l = ⟨seen, .eof row.start, l.nextLocated.2⟩ := by
  rw [runFrom]
  split <;> simp_all

theorem runFrom_error {e : LexError} (h : l.nextLocated.1 = .error e) :
    runFrom seen l = ⟨seen, .failed e, l.nextLocated.2⟩ := by
  rw [runFrom]
  split <;> simp_all

variable (seen l)

theorem prefix_runFrom : seen.toList <+: (runFrom seen l).rows.toList := by
  fun_induction runFrom seen l with
  | case1 seen l row l' h ht => exact List.prefix_refl _
  | case2 seen l row l' h ht ih => exact List.IsPrefix.trans (by simp) ih
  | case3 seen l e l' h => exact List.prefix_refl _

theorem extends_runFrom : (runFrom seen l).lexer.words.Extends l.words := by
  fun_induction runFrom seen l with
  | case1 seen l row l' h ht => have := extends_nextLocated l; rwa [h] at this
  | case2 seen l row l' h ht ih => have := extends_nextLocated l; rw [h] at this; exact ih.trans this
  | case3 seen l e l' h => have := extends_nextLocated l; rwa [h] at this

end

/-! ## Two runs over one stream -/

/-- What the fatal failures `fatals` make of a run that would else be `t'`. -/
inductive Cut (fatals : List Fault) (t t' : Transcript BufferPair) : Prop where
  | none : t.rows = t'.rows → t.ending = t'.ending → t.lexer.words = t'.lexer.words → Cut fatals t t'
  | short {fault : Fault} : fatals.head? = some fault → t.rows.toList <+: t'.rows.toList →
      t.ending = .failed (.input (.read fault)) → t.lexer.poisoned = true →
      t'.lexer.words.Extends t.lexer.words → Cut fatals t t'

section
variable {capacity : Nat} {m : Lexer Flat} {l l' : Lexer BufferPair} {seen : Array Located}

theorem Cut.of_fault {fault : Fault} (hl : AtRest capacity l m) (hl' : AtRest capacity l' m)
    (hf : l.cursor.source.fatals.head? = some fault) (he : l.nextLocated.1 = .error (.input (.read fault)))
    (hp : l.nextLocated.2.poisoned = true) : Cut l.cursor.source.fatals (runFrom seen l) (runFrom seen l') := by
  rw [runFrom_error he]
  refine .short hf (prefix_runFrom seen l') rfl hp ?_
  rw [words_of_nextLocated_error he, hl.words, ← hl'.words]
  exact extends_runFrom seen l'

theorem Cut.of_error {e : LexError} (hl : AtRest capacity l m) (hl' : AtRest capacity l' m)
    (he : l.nextLocated.1 = .error e) (he' : l'.nextLocated.1 = .error e) :
    Cut l.cursor.source.fatals (runFrom seen l) (runFrom seen l') := by
  rw [runFrom_error he, runFrom_error he']
  refine .none rfl rfl ?_
  rw [words_of_nextLocated_error he, words_of_nextLocated_error he', hl.words, hl'.words]

theorem AtRest.cut (hl : AtRest capacity l m) (hl' : AtRest capacity l' m) (hp : m.poisoned = false)
    (hs : l'.cursor.source.Reliable) : Cut l.cursor.source.fatals (runFrom seen l) (runFrom seen l') := by
  -- every row leaves the first lexer less to read
  induction hn : Cursor.remaining l.cursor using Nat.strongRecOn generalizing l l' m seen with
  | ind n ih =>
    cases hl.call hp with
    | fault hf he hpl => exact .of_fault hl hl' hf he hpl
    | tooLong hlong he hpl =>
      cases hl'.call hp with
      | fault hf _ _ => rw [hs] at hf; cases hf
      | tooLong _ he' _ => exact .of_error hl hl' he he'
      | row hshort _ _ _ _ _ => exact absurd hlong hshort
      | error hshort _ _ _ _ => exact absurd hlong hshort
    | error hshort he hm _ _ =>
      cases hl'.call hp with
      | fault hf _ _ => rw [hs] at hf; cases hf
      | tooLong hlong _ _ => exact absurd hlong hshort
      | row _ _ hm' _ _ _ => rw [hm] at hm'; cases hm'
      | error _ he' hm' _ _ =>
        rw [hm] at hm'
        cases hm'
        exact .of_error hl hl' he he'
    | @row row hshort hr hm hnext hp' hfat =>
      cases hl'.call hp with
      | fault hf _ _ => rw [hs] at hf; cases hf
      | tooLong hlong _ _ => exact absurd hlong hshort
      | error _ _ hm' _ _ => rw [hm] at hm'; cases hm'
      | row _ hr' hm' hnext' _ hfat' =>
        rw [hm] at hm'
        cases hm'
        by_cases ht : row.token = .eof
        · rw [runFrom_eof hr ht, runFrom_eof hr' ht]
          exact .none rfl rfl (hnext.words.trans hnext'.words.symm)
        · rw [runFrom_row hr ht, runFrom_row hr' ht, ← hfat]
          have hlt : Cursor.remaining l.nextLocated.2.cursor < n :=
            hn ▸ remaining_nextLocated (Prod.ext hr rfl) ht
          exact ih _ hlt hnext hnext' hp' (hfat'.trans hs) rfl

end

theorem ofSource_error {capacity : Nat} {source : Source} {e : LexError} (hcap : 0 < capacity)
    (h : ofSource capacity source = .error e) :
    ∃ fault, source.fatals.head? = some fault ∧ e = .input (.read fault) := by
  simp only [ofSource, BufferPair.ofSource, if_neg (Nat.ne_of_gt hcap)] at h
  cases hf : source.fill capacity with
  | mk r s =>
    rw [hf] at h
    cases r with
    | ok half => cases h
    | error fault =>
      cases h
      exact ⟨fault, by rw [Source.fill_error hf]; rfl, rfl⟩

/-- A fault neither changes nor adds a token. Over halves of any capacity, the source without its fatal
failures gives some run; the source itself gives the same rows and the same ending, or the first
few of those rows and then the first fatal failure of its script, or no lexer but that failure. -/
theorem fault_cuts_run (capacity : Nat) (source : Source) (hcap : 0 < capacity) :
    ∃ l', ofSource capacity source.withoutFatals = .ok l' ∧
      match ofSource capacity source with
      | .error e => ∃ fault, source.fatals.head? = some fault ∧ e = .input (.read fault)
      | .ok l =>
        l'.run.lexer.words.Extends l.run.lexer.words ∧
          ((l.run.rows = l'.run.rows ∧ l.run.ending = l'.run.ending) ∨
            ∃ fault, source.fatals.head? = some fault ∧ l.run.rows.toList <+: l'.run.rows.toList ∧
              l.run.ending = .failed (.input (.read fault)) ∧
              ∀ n, l.run.lexer.result n = .error .poisoned) := by
  obtain ⟨l', hl'⟩ := exists_ofSource hcap source.reliable_withoutFatals
  obtain ⟨hrest', hfat'⟩ := atRest_ofSource hl'
  rw [source.pending_withoutFatals] at hrest'
  refine ⟨l', hl', ?_⟩
  split
  · rename_i e he
    exact ofSource_error hcap he
  · rename_i l hl
    obtain ⟨hrest, hfat⟩ := atRest_ofSource hl
    rw [← hfat]
    have hcut : Cut l.cursor.source.fatals l.run l'.run :=
      hrest.cut hrest' rfl (hfat'.trans source.reliable_withoutFatals)
    cases hcut with
    | none hrows hending hwords =>
      refine ⟨?_, Or.inl ⟨hrows, hending⟩⟩
      rw [hwords]
      exact .refl _
    | short hf hrows hending hp hwords =>
      refine ⟨hwords, Or.inr ⟨_, hf, hrows, hending, fun n => ?_⟩⟩
      rw [← Nat.zero_add n]
      exact result_of_poisoned (l := l.run.lexer) (n := 0) hp n

theorem fault_cuts_run_behind_word :
    let source : Source := .ofEvents [.data [97, 98, 32, 60], .fail ⟨.other, "gone"⟩, .data [61, 99]] none
    0 < 3 ∧ ∃ l l', ofSource 3 source = .ok l ∧ ofSource 3 source.withoutFatals = .ok l' ∧
      l.run.rows.size = 1 ∧ l'.run.rows.size = 4 ∧ l.run.rows.toList <+: l'.run.rows.toList ∧
      l.run.ending = .failed (.input (.read ⟨.other, "gone"⟩)) ∧ ∀ n, l.run.lexer.result n = .error .poisoned := by
  intro source
  have hcut := fault_cuts_run 3 source (by decide)
  have hone : (ofSource 3 source).toOption.map (fun l => l.run.rows.size) = some 1 := by decide +kernel
  have hfour : (ofSource 3 source.withoutFatals).toOption.map (fun l => l.run.rows.size) = some 4 := by
    decide +kernel
  obtain ⟨l', hl', hcut⟩ := hcut
  rw [hl'] at hfour
  have hfour : l'.run.rows.size = 4 := Option.some.inj hfour
  cases hl : ofSource 3 source with
  | error e => rw [hl] at hone; cases hone
  | ok l =>
    rw [hl] at hone hcut
    have hone : l.run.rows.size = 1 := Option.some.inj hone
    refine ⟨by decide, l, l', rfl, hl', hone, hfour, ?_⟩
    rcases hcut.2 with ⟨hrows, _⟩ | ⟨fault, hf, hrows, hending, hpoison⟩
    · rw [hrows, hfour] at hone
      cases hone
    · cases hf
      exact ⟨hrows, hending, hpoison⟩

end Lexer

end StreamLexer
