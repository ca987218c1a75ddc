import StreamLexer.Input.Flat
import StreamLexer.Lexer.Basic

/-!
# How far an automaton reaches

`reach` counts the transitions an automaton makes on a list of bytes and `halt` is the state they
lead to. Over a flat cursor without a window, a run of the automaton is told by the two and by
what stands behind the last transition.
-/

namespace StreamLexer

section
variable {Q : Type} (step : Q → Byte → Option Q)

/-- How many bytes the automaton takes from the front of a list. -/
def reach (q : Q) : List Byte → Nat
  | [] => 0
  | b :: bytes =>
    match step q b with
    | some q' => reach q' bytes + 1
    | none => 0

/-- The state the automaton is in when it has taken all it can. -/
def halt (q : Q) : List Byte → Q
  | [] => q
  | b :: bytes =>
    match step q b with
    | some q' => halt q' bytes
    | none => q

variable {step}

theorem reach_cons_some {q q' : Q} {b : Byte} (bytes : List Byte) (h : step q b = some q') :
    reach step q (b :: bytes) = reach step q' bytes + 1 ∧ halt step q (b :: bytes) = halt step q' bytes := by
  simp [reach, halt, h]

theorem reach_cons_none {q : Q} {b : Byte} (bytes : List Byte) (h : step q b = none) :
    reach step q (b :: bytes) = 0 ∧ halt step q (b :: bytes) = q := by
  simp [reach, halt, h]

theorem reach_le_length : ∀ (q : Q) (bytes : List Byte), reach step q bytes ≤ bytes.length
  | _, [] => Nat.le_refl _
  | q, b :: bytes => by
    cases hs : step q b with
    | none => rw [(reach_cons_none bytes hs).1]; exact Nat.zero_le _
    | some q' =>
      rw [(reach_cons_some bytes hs).1]
      exact Nat.succ_le_succ (reach_le_length q' bytes)

theorem foldlM_take_reach : ∀ (q : Q) (bytes : List Byte),
    (bytes.take (reach step q bytes)).foldlM step q = some (halt step q bytes)
  | _, [] => rfl
  | q, b :: bytes => by
    cases hs : step q b with
    | none => rw [(reach_cons_none bytes hs).1, (reach_cons_none bytes hs).2]; rfl
    | some q' =>
      rw [(reach_cons_some bytes hs).1, (reach_cons_some bytes hs).2, List.take_succ_cons, List.foldlM_cons, hs]
      exact foldlM_take_reach q' bytes

theorem step_halt_eq_none : ∀ (q : Q) (bytes : List Byte) {b : Byte},
    bytes[reach step q bytes]? = some b → step (halt step q bytes) b = none
  | q, [], b, h => by simp [reach] at h
  | q, c :: bytes, b, h => by
    cases hs : step q c with
    | none =>
      rw [(reach_cons_none bytes hs).1] at h
      rw [(reach_cons_none bytes hs).2]
      have : c = b := by simpa using h
      rw [← this]; exact hs
    | some q' =>
      rw [(reach_cons_some bytes hs).1, List.getElem?_cons_succ] at h
      rw [(reach_cons_some bytes hs).2]
      exact step_halt_eq_none q' bytes h

theorem reach_append {q q' : Q} : ∀ {text : List Byte} (rest : List Byte),
    text.foldlM step q = some q' → (∀ b ∈ rest.head?, step q' b = none) →
      reach step q (text ++ rest) = text.length ∧ halt step q (text ++ rest) = q'
  | [], rest, h, hr => by
    have hq : q = q' := by simpa using h
    subst hq
    cases rest with
    | nil => exact ⟨rfl, rfl⟩
    | cons b rest => exact reach_cons_none rest (hr b rfl)
  | c :: text, rest, h, hr => by
    rw [List.foldlM_cons] at h
    cases hs : step q c with
    | none => simp [hs] at h
    | some p =>
      rw [hs] at h
      obtain ⟨h1, h2⟩ := reach_append rest h hr
      rw [List.cons_append, (reach_cons_some _ hs).1, (reach_cons_some _ hs).2, h1]
      exact ⟨rfl, h2⟩

end

/-! ## Automata with one state -/

def stay (p : Byte → Bool) (_ : Unit) (b : Byte) : Option Unit := if p b then some () else none

theorem foldlM_stay {p : Byte → Bool} : ∀ {text : List Byte},
    text.foldlM (stay p) () = some () ↔ ∀ b ∈ text, p b = true
  | [] => by simp
  | b :: text => by
    rw [List.foldlM_cons, List.forall_mem_cons]
    by_cases hb : p b = true
    · simp only [stay, hb, if_true, true_and]
      exact foldlM_stay
    · simp [stay, hb]

theorem stay_eq_none {p : Byte → Bool} {b : Byte} : stay p () b = none ↔ p b = false := by
  simp [stay]

/-! ## A flat cursor without a window -/

namespace Flat

def peek (f : Flat) (pos : Nat) : Reading :=
  match f.data[pos]? with
  | none => .eof
  | some b => if b.isAscii then .char b else .failed (.nonAscii b pos)

def goto (f : Flat) (pos : Nat) : Flat := { f with pos }

def rest (f : Flat) : List Byte := f.data.toList.drop f.pos

theorem peek_eq_char {f : Flat} {pos : Nat} {b : Byte} (h : f.peek pos = .char b) :
    f.data[pos]? = some b ∧ b.isAscii = true := by
  unfold peek at h
  split at h
  · cases h
  · rename_i c hc
    split at h
    · rename_i ha
      cases h
      exact ⟨hc, ha⟩
    · cases h

theorem peek_eq_eof {f : Flat} {pos : Nat} (h : f.peek pos = .eof) : f.data.size ≤ pos := by
  unfold peek at h
  split at h
  · rename_i hn
    exact Array.getElem?_eq_none_iff.mp hn
  · split at h <;> cases h

theorem peek_eq_failed {f : Flat} {pos : Nat} {error : InputError} (h : f.peek pos = .failed error) :
    ∃ b, f.data[pos]? = some b ∧ b.isAscii = false ∧ error = .nonAscii b pos := by
  unfold peek at h
  split at h
  · cases h
  · rename_i c hc
    split at h
    · cases h
    · rename_i ha
      cases h
      exact ⟨c, hc, by simpa using ha, rfl⟩

def moved (f : Flat) : Reading → Flat
  | .char _ => f.goto (f.pos + 1)
  | _ => f

theorem next_of_window_none {f : Flat} (h : f.window = none) : f.next = (f.peek f.pos, f.moved (f.peek f.pos)) := by
  have hb : f.bound ≠ some f.pos := by simp [bound, h]
  simp only [next, hb, if_false, peek, moved, goto]
  cases f.data[f.pos]? with
  | none => rfl
  | some b => by_cases ha : b.isAscii = true <;> simp [ha]

theorem next_eq {f f' : Flat} {r : Reading} (h : f.window = none) (hn : Cursor.next f = (r, f')) :
    f.peek f.pos = r ∧ f' = f.moved r := by
  have hn : f.next = (r, f') := hn
  rw [next_of_window_none h] at hn
  cases hn
  exact ⟨rfl, rfl⟩

theorem rest_of_peek {f : Flat} {b : Byte} (h : f.data[f.pos]? = some b) :
    f.rest = b :: (f.goto (f.pos + 1)).rest := by
  rw [← Array.getElem?_toList] at h
  obtain ⟨hlt, rfl⟩ := List.getElem?_eq_some_iff.mp h
  exact List.drop_eq_getElem_cons hlt

theorem rest_of_eof {f : Flat} (h : f.peek f.pos = .eof) : f.rest = [] :=
  List.drop_eq_nil_of_le (by simpa using peek_eq_eof h)

variable {Q : Type} {step : Q → Byte → Option Q}

theorem reach_of_failed (hstep : ∀ q b q', step q b = some q' → b.isAscii = true) (q : Q) {f : Flat}
    {error : InputError} (h : f.peek f.pos = .failed error) : reach step q f.rest = 0 := by
  obtain ⟨b, hb, ha, _⟩ := peek_eq_failed h
  have hs : step q b = none := by
    cases hs : step q b with
    | none => rfl
    | some q' => rw [hstep q b q' hs] at ha; cases ha
  rw [rest_of_peek hb, (reach_cons_none _ hs).1]

/-- A run takes what it can reach and stops at what stands there. -/
theorem run_eq (hstep : ∀ q b q', step q b = some q' → b.isAscii = true) (q : Q) (f : Flat) (h : f.window = none) :
    Cursor.run step q f =
      match f.peek (f.pos + reach step q f.rest) with
      | .char b => (.char (halt step q f.rest) b, f.goto (f.pos + reach step q f.rest + 1))
      | .eof => (.eof (halt step q f.rest), f.goto (f.pos + reach step q f.rest))
      | .failed error => (.failed error, f.goto (f.pos + reach step q f.rest)) := by
  fun_induction Cursor.run step q f with
  | case1 q f b f' hn q' hs ih =>
    obtain ⟨hp, rfl⟩ := next_eq h hn
    obtain ⟨hr1, hr2⟩ := reach_cons_some (f.goto (f.pos + 1)).rest hs
    rw [ih h, rest_of_peek (peek_eq_char hp).1, hr1, hr2]
    have hpos : (f.goto (f.pos + 1)).pos + reach step q' (f.goto (f.pos + 1)).rest =
        f.pos + (reach step q' (f.goto (f.pos + 1)).rest + 1) := by simp only [goto]; omega
    simp only [moved, hpos]
    rfl
  | case2 q f b f' hn hs =>
    obtain ⟨hp, rfl⟩ := next_eq h hn
    obtain ⟨hr1, hr2⟩ := reach_cons_none (f.goto (f.pos + 1)).rest hs
    rw [rest_of_peek (peek_eq_char hp).1, hr1, hr2, Nat.add_zero, hp]
    rfl
  | case3 q f f' hn =>
    obtain ⟨hp, rfl⟩ := next_eq h hn
    rw [rest_of_eof hp, reach, halt, Nat.add_zero, hp]
    rfl
  | case4 q f error f' hn =>
    obtain ⟨hp, rfl⟩ := next_eq h hn
    rw [reach_of_failed hstep q hp, Nat.add_zero, hp]
    rfl

theorem run_kept (hstep : ∀ q b q', step q b = some q' → b.isAscii = true) (q : Q) {f g : Flat} {r : Halt Q}
    (h : f.window = none) (hr : Cursor.run step q f = (r, g)) :
    g = f.goto g.pos ∧ f.pos ≤ g.pos ∧ ∀ q' b, r = .char q' b → f.pos < g.pos := by
  rw [run_eq hstep q f h] at hr
  split at hr <;> cases hr <;> refine ⟨rfl, by simp only [goto]; omega, fun q' b e => ?_⟩
  · simp only [goto]; omega
  · cases e
  · cases e

end Flat

end StreamLexer
