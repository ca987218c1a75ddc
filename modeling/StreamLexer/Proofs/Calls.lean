import StreamLexer.Lexer.Run
import StreamLexer.Proofs.Naming

/-!
# Calls of a lexer

A lexer that is asked again and again, seen from outside: `result` numbers the answers and `after`
the lexers between them. A scan leaves the poison alone and adds to the words only where it gives
out a word, and a poisoned lexer stays as it is.
-/

namespace StreamLexer

namespace Lexer

variable {σ : Type} [Cursor σ]

def after (l : Lexer σ) : Nat → Lexer σ
  | 0 => l
  | n + 1 => (l.after n).nextLocated.2

def result (l : Lexer σ) (n : Nat) : Except LexError Located := (l.after n).nextLocated.1

omit [Cursor σ] in
theorem ofSource_eq_ok {capacity : Nat} {source : Source} {l : Lexer BufferPair}
    (h : ofSource capacity source = .ok l) : ∃ p, BufferPair.ofSource capacity source = .ok p ∧ l = ofCursor p := by
  unfold ofSource at h
  split at h
  · rename_i p hp
    cases h
    exact ⟨p, hp, rfl⟩
  · cases h

theorem words_ofSource {capacity : Nat} {source : Source} {l : Lexer BufferPair}
    (h : ofSource capacity source = .ok l) : l.words = .initial := by
  obtain ⟨p, _, rfl⟩ := ofSource_eq_ok h
  rfl

/-- What a scan may do to a lexer besides moving its cursor and its position. -/
structure Spares (l : Lexer σ) (r : Except LexError Token × Lexer σ) : Prop where
  poisoned : r.2.poisoned = l.poisoned
  words : match r.1 with
    | .ok (.word w) => ∃ text, l.words.resolve text = .ok (w, r.2.words)
    | _ => r.2.words = l.words

omit [Cursor σ] in
theorem Spares.of_eq {l l' : Lexer σ} {r : Except LexError Token × Lexer σ} (h : Spares l' r)
    (hp : l'.poisoned = l.poisoned) (hw : l'.words = l.words) : Spares l r := by
  obtain ⟨h1, h2⟩ := h
  rw [hw] at h2
  exact ⟨h1.trans hp, h2⟩

theorem spares_finishWord (l : Lexer σ) : Spares l l.finishWord := by
  unfold finishWord
  simp only
  cases h : l.takeLexeme.2.words.resolve (Byte.text l.takeLexeme.1) with
  | error e => exact ⟨rfl, rfl⟩
  | ok r => exact ⟨rfl, _, h⟩

theorem spares_scanWord (l : Lexer σ) : Spares l l.scanWord := by
  unfold scanWord
  split
  · exact (spares_finishWord _).of_eq rfl rfl
  · exact (spares_finishWord _).of_eq rfl rfl
  · exact ⟨rfl, rfl⟩

theorem spares_scanNumber (l : Lexer σ) : Spares l l.scanNumber := by
  unfold scanNumber
  split
  · split <;> exact ⟨rfl, rfl⟩
  · split <;> exact ⟨rfl, rfl⟩
  · exact ⟨rfl, rfl⟩

theorem spares_scanOperator (l : Lexer σ) (op : Operator) : Spares l (l.scanOperator op) := by
  unfold scanOperator
  split
  · split
    · split <;> exact ⟨rfl, rfl⟩
    · exact ⟨rfl, rfl⟩
    · exact ⟨rfl, rfl⟩
  · exact ⟨rfl, rfl⟩

theorem relieve_spares (l : Lexer σ) : l.relieve.poisoned = l.poisoned ∧ l.relieve.words = l.words := by
  unfold relieve
  split <;> exact ⟨rfl, rfl⟩

theorem spares_scanLayout (l : Lexer σ) : Spares l l.scanLayout := by
  fun_induction scanLayout l with
  | case1 l b s hn hb ih => exact ih.of_eq (relieve_spares l).1 (relieve_spares l).2
  | case2 l b s hn hb => exact ⟨(relieve_spares l).1, (relieve_spares l).2⟩
  | case3 l s hn => exact ⟨(relieve_spares l).1, (relieve_spares l).2⟩
  | case4 l e s hn => exact ⟨(relieve_spares l).1, (relieve_spares l).2⟩

theorem spares_scan (l : Lexer σ) : Spares l l.scan := by
  unfold scan
  split
  · split
    · exact (spares_scanWord _).of_eq rfl rfl
    · split
      · exact (spares_scanNumber _).of_eq rfl rfl
      · split
        · exact (spares_scanLayout _).of_eq rfl rfl
        · split
          · exact (spares_scanOperator _ _).of_eq rfl rfl
          · exact ⟨rfl, rfl⟩
  · exact ⟨rfl, rfl⟩
  · exact ⟨rfl, rfl⟩

def Plain (r : Except LexError Token × Lexer σ) : Prop :=
  match r.1 with
  | .ok t => t ≠ .eof
  | .error e => e.position? = none

omit [Cursor σ] in
theorem Plain.ok {r : Except LexError Token × Lexer σ} {t : Token} {l' : Lexer σ} (hr : Plain r)
    (h : r = (.ok t, l')) : t ≠ .eof := by
  rw [h] at hr
  exact hr

omit [Cursor σ] in
theorem Plain.error {r : Except LexError Token × Lexer σ} {e : LexError} {l' : Lexer σ} (hr : Plain r)
    (h : r = (.error e, l')) : e.position? = none := by
  rw [h] at hr
  exact hr

theorem plain_scanWord (l : Lexer σ) : Plain l.scanWord := by
  have hfinish : ∀ m : Lexer σ, Plain m.finishWord := by
    intro m
    simp only [finishWord]
    split
    · intro h; cases h
    · rfl
  unfold scanWord
  split
  · exact hfinish _
  · exact hfinish _
  · rfl

theorem plain_scanOperator (l : Lexer σ) (op : Operator) : Plain (l.scanOperator op) := by
  unfold scanOperator
  split
  · split
    · split <;> intro h <;> cases h
    · intro h; cases h
    · rfl
  · intro h; cases h

theorem plain_scanLayout (l : Lexer σ) : Plain l.scanLayout := by
  fun_induction scanLayout l with
  | case1 l b s hn hb ih => exact ih
  | case2 l b s hn hb => intro h; cases h
  | case3 l s hn => intro h; cases h
  | case4 l e s hn => rfl

/-! ## Poison -/

theorem nextLocated_of_poisoned {l : Lexer σ} (h : l.poisoned = true) : l.nextLocated = (.error .poisoned, l) := by
  simp [nextLocated, h]

theorem nextLocated_of_scan {l : Lexer σ} (h : l.poisoned = false) :
    l.nextLocated =
      match l.scan with
      | (.ok token, l') => (.ok ⟨token, l.position⟩, l')
      | (.error error, l') => (.error error, { l' with poisoned := true }) := by
  unfold nextLocated
  split
  · rename_i hp
    rw [h] at hp
    cases hp
  · rfl

theorem scan_of_nextLocated {l : Lexer σ} {row : Located} (hp : l.poisoned = false) (h : l.nextLocated.1 = .ok row) :
    l.scan = (.ok row.token, l.nextLocated.2) ∧ row.start = l.position := by
  rw [nextLocated_of_scan hp] at h ⊢
  rcases hs : l.scan with ⟨r, l'⟩
  rw [hs] at h
  cases r with
  | error e => cases h
  | ok t =>
    cases h
    exact ⟨rfl, rfl⟩

theorem poisoned_of_nextLocated_ok {l : Lexer σ} {row : Located} (h : l.nextLocated.1 = .ok row) :
    l.poisoned = false ∧ l.nextLocated.2.poisoned = false := by
  cases hp : l.poisoned with
  | true =>
    rw [nextLocated_of_poisoned hp] at h
    cases h
  | false =>
    have hspares := (spares_scan l).poisoned
    rw [(scan_of_nextLocated hp h).1, hp] at hspares
    exact ⟨rfl, hspares⟩

theorem poisoned_of_nextLocated_error {l : Lexer σ} {e : LexError} (h : l.nextLocated.1 = .error e) :
    l.nextLocated.2.poisoned = true := by
  cases hp : l.poisoned with
  | true => rw [nextLocated_of_poisoned hp, hp]
  | false =>
    rw [nextLocated_of_scan hp] at h ⊢
    rcases hs : l.scan with ⟨r, l'⟩
    rw [hs] at h
    cases r with
    | ok t => cases h
    | error e' => rfl

theorem words_of_nextLocated_error {l : Lexer σ} {e : LexError} (h : l.nextLocated.1 = .error e) :
    l.nextLocated.2.words = l.words := by
  cases hp : l.poisoned with
  | true => rw [nextLocated_of_poisoned hp]
  | false =>
    have hs := (spares_scan l).words
    rw [nextLocated_of_scan hp] at h ⊢
    rcases hr : l.scan with ⟨r, l'⟩
    rw [hr] at h hs
    cases r with
    | ok t => cases h
    | error e' => exact hs

theorem nextLocated_words (l : Lexer σ) :
    (l.nextLocated.2.words = l.words ∧ ∀ row w, l.nextLocated.1 = .ok row → row.token ≠ .word w) ∨
      ∃ row w s, l.nextLocated.1 = .ok row ∧ row.token = .word w ∧
        l.words.resolve s = .ok (w, l.nextLocated.2.words) := by
  cases hr : l.nextLocated.1 with
  | error e => exact Or.inl ⟨words_of_nextLocated_error hr, fun _ _ h => by cases h⟩
  | ok row =>
    have hspares := (spares_scan l).words
    rw [(scan_of_nextLocated (poisoned_of_nextLocated_ok hr).1 hr).1] at hspares
    cases ht : row.token with
    | word w =>
      rw [ht] at hspares
      obtain ⟨s, hs⟩ := hspares
      exact Or.inr ⟨row, w, s, rfl, ht, hs⟩
    | _ =>
      rw [ht] at hspares
      refine Or.inl ⟨hspares, fun row' w h => ?_⟩
      cases h
      rw [ht]
      intro h
      cases h

theorem words_nextLocated {R : Lexicon → Prop}
    (hresolve : ∀ {t t' : Lexicon} {s w}, R t → t.resolve s = .ok (w, t') → R t') {l : Lexer σ} (h : R l.words) :
    R l.nextLocated.2.words := by
  rcases nextLocated_words l with ⟨hsame, _⟩ | ⟨_, w, s, _, _, hs⟩
  · rw [hsame]
    exact h
  · exact hresolve h hs

theorem words_after {R : Lexicon → Prop}
    (hresolve : ∀ {t t' : Lexicon} {s w}, R t → t.resolve s = .ok (w, t') → R t') {l : Lexer σ} {i : Nat}
    (h : R (l.after i).words) : ∀ j, R (l.after (i + j)).words
  | 0 => h
  | j + 1 => words_nextLocated hresolve (words_after hresolve h j)

theorem extends_nextLocated (l : Lexer σ) : l.nextLocated.2.words.Extends l.words :=
  words_nextLocated (R := fun t => t.Extends l.words) (fun h hr => (Lexicon.extends_resolve hr).trans h) (.refl _)

theorem extends_after (l : Lexer σ) (i : Nat) : ∀ j, (l.after (i + j)).words.Extends (l.after i).words
  | 0 => .refl _
  | j + 1 => (extends_nextLocated (l.after (i + j))).trans (extends_after l i j)

theorem after_after (l : Lexer σ) (i : Nat) : ∀ j, (l.after i).after j = l.after (i + j)
  | 0 => rfl
  | j + 1 => by
    show ((l.after i).after j).nextLocated.2 = (l.after (i + j)).nextLocated.2
    rw [after_after l i j]

theorem after_succ (l : Lexer σ) (i : Nat) : l.after (i + 1) = l.nextLocated.2.after i := by
  rw [Nat.add_comm i 1, ← after_after]
  rfl

theorem result_succ (l : Lexer σ) (i : Nat) : l.result (i + 1) = l.nextLocated.2.result i := by
  rw [result, after_succ, result]

theorem after_of_fixed {l : Lexer σ} {n : Nat} (h : (l.after n).nextLocated.2 = l.after n) :
    ∀ m, l.after (n + m) = l.after n
  | 0 => rfl
  | m + 1 => by
    show (l.after (n + m)).nextLocated.2 = l.after n
    rw [after_of_fixed h m, h]

theorem after_of_poisoned {l : Lexer σ} {n : Nat} (h : (l.after n).poisoned = true) (m : Nat) :
    l.after (n + m) = l.after n :=
  after_of_fixed (by rw [nextLocated_of_poisoned h]) m

theorem result_of_poisoned {l : Lexer σ} {n : Nat} (h : (l.after n).poisoned = true) (m : Nat) :
    l.result (n + m) = .error .poisoned := by
  rw [result, after_of_poisoned h m, nextLocated_of_poisoned h]

/-! ## What a call keeps -/

theorem run_ends {S : Type} (step : S → Byte → Option S) {R : σ → Prop}
    (hstep : ∀ {q q' s s' b}, R s → Cursor.next s = (.char b, s') → step q b = some q' → R s') (q : S) {s : σ}
    (h : R s) :
    ∃ s₀, R s₀ ∧
      match Cursor.run step q s with
      | (.char _ b, s') => Cursor.next s₀ = (.char b, s')
      | (.eof _, s') => Cursor.next s₀ = (.eof, s')
      | (.failed e, s') => Cursor.next s₀ = (.failed e, s') := by
  fun_induction Cursor.run step q s with
  | case1 q s b s' hn q' hs ih => exact ih (hstep h hn hs)
  | case2 q s b s' hn hs => exact ⟨s, h, hn⟩
  | case3 q s s' hn => exact ⟨s, h, hn⟩
  | case4 q s e s' hn => exact ⟨s, h, hn⟩

/-- Conditions on a cursor and the position of its lexer that every move of a scan respects: `Q` holds
between two tokens, `P` inside of one, and `E` where the lexer has failed. A character is taken
back only right after it was read. -/
structure Respected (Q P E : σ → Position → Prop) : Prop where
  begin {s here} : Q s here → P s here
  char {s s' b here} : P s here → Cursor.next s = (.char b, s') → P s' here ∧ P (Cursor.pushBack s') here
  eof {s s' here} : P s here → Cursor.next s = (.eof, s') → P s' here
  atEnd {s s' here} : Q s here → Cursor.next s = (.eof, s') → Q s' here
  failed {s s' e here} : P s here → Cursor.next s = (.failed e, s') → E s' here
  take {s here} : P s here → Q (Cursor.take s).2 (here.advance (Cursor.take s).1)
  stop {s here} : P s here → E s here

def Leaves (Q P E : σ → Position → Prop) (r : Except LexError Token × Lexer σ) : Prop :=
  match r.1 with
  | .ok _ => Q r.2.cursor r.2.position
  | .error (.input _) => E r.2.cursor r.2.position
  | .error _ => P r.2.cursor r.2.position

namespace Respected

variable {Q P E : σ → Position → Prop} (h : Respected Q P E)
include h

theorem run {S : Type} (step : S → Byte → Option S) (q : S) {s : σ} {here : Position} (hs : P s here) :
    match Cursor.run step q s with
    | (.char _ _, s') => P s' here ∧ P (Cursor.pushBack s') here
    | (.eof _, s') => P s' here
    | (.failed _, s') => E s' here := by
  obtain ⟨s₀, hs₀, hn⟩ := run_ends step (R := fun s => P s here) (fun hs hn _ => (h.char hs hn).1) q hs
  rcases hr : Cursor.run step q s with ⟨r, s'⟩
  rw [hr] at hn
  cases r with
  | char q b => exact h.char hs₀ hn
  | eof q => exact h.eof hs₀ hn
  | failed e => exact h.failed hs₀ hn

theorem finishWord (l : Lexer σ) (hl : P l.cursor l.position) : Leaves Q P E l.finishWord := by
  simp only [Lexer.finishWord]
  split
  · exact h.take hl
  · exact h.begin (h.take hl)

theorem scanWord (l : Lexer σ) (hl : P l.cursor l.position) : Leaves Q P E l.scanWord := by
  have hr := h.run wordStep () hl
  unfold Lexer.scanWord
  split <;> rename_i hs <;> rw [hs] at hr
  · exact h.finishWord _ hr.2
  · exact h.finishWord _ hr
  · exact hr

theorem scanNumber (l : Lexer σ) (hl : P l.cursor l.position) : Leaves Q P E l.scanNumber := by
  have hr := h.run NumberState.step .integer hl
  unfold Lexer.scanNumber
  split <;> rename_i hs <;> rw [hs] at hr
  · split
    · exact h.take hr.2
    · exact hr.1
  · split
    · exact h.take hr
    · exact hr
  · exact hr

theorem scanOperator (l : Lexer σ) (op : Operator) (hl : P l.cursor l.position) :
    Leaves Q P E (l.scanOperator op) := by
  unfold Lexer.scanOperator
  split
  · split <;> rename_i hn
    · split
      · exact h.take (h.char hl hn).1
      · exact h.take (h.char hl hn).2
    · exact h.take (h.eof hl hn)
    · exact h.failed hl hn
  · exact h.take hl

theorem relieve (l : Lexer σ) (hl : P l.cursor l.position) : P l.relieve.cursor l.relieve.position := by
  unfold Lexer.relieve
  split
  · exact h.begin (h.take hl)
  · exact hl

theorem scanLayout (l : Lexer σ) (hl : P l.cursor l.position) : Leaves Q P E l.scanLayout := by
  fun_induction Lexer.scanLayout l with
  | case1 l b s hn hb ih => exact ih (h.char (h.relieve l hl) hn).1
  | case2 l b s hn hb => exact h.take (h.char (h.relieve l hl) hn).2
  | case3 l s hn => exact h.take (h.eof (h.relieve l hl) hn)
  | case4 l e s hn => exact h.failed (h.relieve l hl) hn

theorem scan (l : Lexer σ) (hl : Q l.cursor l.position) : Leaves Q P E l.scan := by
  unfold Lexer.scan
  split <;> rename_i hn
  · have hc := (h.char (h.begin hl) hn).1
    split
    · exact h.scanWord _ hc
    · split
      · exact h.scanNumber _ hc
      · split
        · exact h.scanLayout _ hc
        · split
          · exact h.scanOperator _ _ hc
          · exact hc
  · exact h.atEnd hl hn
  · exact h.failed (h.begin hl) hn

theorem nextLocated (l : Lexer σ) (hl : l.poisoned = false → Q l.cursor l.position) (he : E l.cursor l.position) :
    (l.nextLocated.2.poisoned = false → Q l.nextLocated.2.cursor l.nextLocated.2.position) ∧
      E l.nextLocated.2.cursor l.nextLocated.2.position := by
  cases hp : l.poisoned with
  | true =>
    rw [nextLocated_of_poisoned hp]
    exact ⟨hl, he⟩
  | false =>
    have hs := h.scan l (hl hp)
    rw [nextLocated_of_scan hp]
    rcases hr : l.scan with ⟨r, l'⟩
    rw [hr] at hs
    cases r with
    | ok t => exact ⟨fun _ => hs, h.stop (h.begin hs)⟩
    | error e =>
      refine ⟨fun hp' => (by cases hp'), ?_⟩
      cases e with
      | input e => exact hs
      | _ => exact h.stop hs

/-- What every move of a scan respects, all calls respect. -/
theorem after (l : Lexer σ) (hl : l.poisoned = false → Q l.cursor l.position) (he : E l.cursor l.position) : ∀ n,
    ((l.after n).poisoned = false → Q (l.after n).cursor (l.after n).position) ∧
      E (l.after n).cursor (l.after n).position
  | 0 => ⟨hl, he⟩
  | n + 1 =>
    have ih := after l hl he n
    h.nextLocated _ ih.1 ih.2

end Respected

/-! ## Invariants of the cursor -/

def Reads (P E : σ → Prop) (r : Reading × σ) : Prop :=
  match r.1 with
  | .failed _ => E r.2
  | _ => P r.2

section
variable {P E : σ → Prop} (hnext : ∀ s, P s → Reads P E (Cursor.next s)) (hback : ∀ s, P s → P (Cursor.pushBack s))
  (htake : ∀ s, P s → P (Cursor.take s).2) (hstop : ∀ s, P s → E s)
include hnext hback htake hstop

theorem respected_cursor : Respected (fun s _ => P s) (fun s _ => P s) (fun s (_ : Position) => E s) where
  begin hs := hs
  char {s s' b here} hs hn := by
    have hr := hnext s hs
    rw [hn] at hr
    exact ⟨hr, hback _ hr⟩
  eof {s s' here} hs hn := by
    have hr := hnext s hs
    rwa [hn] at hr
  atEnd {s s' here} hs hn := by
    have hr := hnext s hs
    rwa [hn] at hr
  failed {s s' e here} hs hn := by
    have hr := hnext s hs
    rwa [hn] at hr
  take hs := htake _ hs
  stop hs := hstop _ hs

theorem after_invariant (l : Lexer σ) (h : P l.cursor) (n : Nat) :
    ((l.after n).poisoned = false → P (l.after n).cursor) ∧ E (l.after n).cursor :=
  (respected_cursor hnext hback htake hstop).after l (fun _ => h) (hstop _ h) n

end

end Lexer

end StreamLexer
