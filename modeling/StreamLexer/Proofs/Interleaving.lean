import StreamLexer.Proofs.Loading

/-!
# Three ways to ask

A lexer may be asked for tokens with their starts, for tokens alone, or for the items of a sequence.
All three take the same steps, so a mixture of them shows one run. The first error and the end of the
input are final: behind them no call changes the lexer, and reads nothing more from its source.
-/

namespace StreamLexer

inductive Call where
  | located
  | token
  | item
deriving DecidableEq

inductive Reply where
  | located (result : Except LexError Located)
  | token (result : Except LexError Token)
  | item (result : Option (Except LexError Token))

namespace Call

def shows : Call → Except LexError Located → Reply
  | .located, r => .located r
  | .token, .ok row => .token (.ok row.token)
  | .token, .error e => .token (.error e)
  | .item, .ok row => .item (if row.token = .eof then none else some (.ok row.token))
  | .item, .error e => .item (some (.error e))

/-- What a call shows behind a final result: the end of the input again, or that the lexer has failed;
and a sequence that is over stays over. -/
def repeats : Call → Except LexError Located → Reply
  | .item, _ => .item none
  | c, .ok row => c.shows (.ok row)
  | c, .error _ => c.shows (.error .poisoned)

end Call

namespace Lexer

/-- Whether a run ends with this result. -/
def Final : Except LexError Located → Prop
  | .ok row => row.token = .eof
  | .error _ => True

section
variable {σ : Type} [Cursor σ]

def ask (l : Lexer σ) : Call → Reply × Lexer σ
  | .located => (.located l.nextLocated.1, l.nextLocated.2)
  | .token => (.token l.nextToken.1, l.nextToken.2)
  | .item => (.item l.nextItem.1, l.nextItem.2)

def askAll (l : Lexer σ) : List Call → List Reply × Lexer σ
  | [] => ([], l)
  | call :: calls =>
    match l.ask call with
    | (reply, l') =>
      match l'.askAll calls with
      | (replies, l'') => (reply :: replies, l'')

theorem ask_of_poisoned {l : Lexer σ} (hp : l.poisoned = true) (call : Call) :
    l.ask call = (call.repeats (.error .poisoned), l) := by
  cases call with
  | located => simp [ask, nextLocated_of_poisoned hp, Call.repeats, Call.shows]
  | token => simp [ask, nextToken, nextLocated_of_poisoned hp, Call.repeats, Call.shows]
  | item => simp [ask, nextItem, hp, Call.repeats]

theorem ask_of_not_poisoned {l : Lexer σ} (hp : l.poisoned = false) (call : Call) :
    l.ask call = (call.shows l.nextLocated.1, l.nextLocated.2) := by
  rcases hr : l.nextLocated with ⟨r, l'⟩
  cases call with
  | located => simp only [ask, hr, Call.shows]
  | token => cases r <;> simp only [ask, nextToken, hr, Call.shows]
  | item =>
    cases r with
    | error e => simp [ask, nextItem, nextToken, hp, hr, Call.shows]
    | ok row => cases ht : row.token <;> simp [ask, nextItem, nextToken, hp, hr, ht, Call.shows]

theorem ask_snd (l : Lexer σ) (call : Call) : (l.ask call).2 = l.nextLocated.2 := by
  cases hp : l.poisoned with
  | true => rw [ask_of_poisoned hp, nextLocated_of_poisoned hp]
  | false => rw [ask_of_not_poisoned hp]

theorem askAll_snd : ∀ (calls : List Call) (l : Lexer σ), (l.askAll calls).2 = l.after calls.length
  | [], _ => rfl
  | call :: calls, l => by
    show ((l.ask call).2.askAll calls).2 = l.after (calls.length + 1)
    rw [askAll_snd calls, ask_snd, Nat.add_comm]
    exact after_after l 1 calls.length

theorem getElem?_askAll : ∀ (calls : List Call) (l : Lexer σ) (i : Nat),
    (l.askAll calls).1[i]? = calls[i]?.map fun call => ((l.after i).ask call).1
  | [], _, _ => rfl
  | call :: calls, l, 0 => rfl
  | call :: calls, l, i + 1 => by
    show ((l.ask call).2.askAll calls).1[i]? = calls[i]?.map _
    rw [getElem?_askAll calls, ask_snd, Nat.add_comm i 1, ← after_after l 1 i]
    rfl

/-! ## The end of the input -/

section
variable {l l' : Lexer σ}

theorem scanNumber_ne_eof : l.scanNumber ≠ (.ok .eof, l') := by
  intro h
  unfold scanNumber at h
  split at h
  · split at h <;> cases h
  · split at h <;> cases h
  · cases h

theorem scan_eq_eof (h : l.scan = (.ok .eof, l')) : ∃ s, Cursor.next l.cursor = (.eof, s) ∧ l' = l.moveTo s := by
  unfold scan at h
  split at h
  · split at h
    · exact absurd rfl ((plain_scanWord _).ok h)
    · split at h
      · exact absurd h scanNumber_ne_eof
      · split at h
        · exact absurd rfl ((plain_scanLayout _).ok h)
        · split at h
          · exact absurd rfl ((plain_scanOperator _ _).ok h)
          · cases h
  · rename_i s hn
    cases h
    exact ⟨s, hn, rfl⟩
  · cases h

end

end

end Lexer

namespace BufferPair

theorem cross_eq_ok {p p' : BufferPair} {u : Unit} (h : p.cross = (.ok u, p')) :
    p'.forward = 0 ∧ p'.capacity = p.capacity := by
  unfold cross at h
  split at h
  · cases h
  · split at h
    · cases h
      exact ⟨rfl, rfl⟩
    · split at h <;> cases h
      exact ⟨rfl, rfl⟩

/-- A pair that has met the end of the stream stays there, without another read of its source. -/
theorem next_of_eof {p p' : BufferPair} (hcap : 0 < p.capacity) (h : p.next = (.eof, p')) : p'.next = (.eof, p') := by
  have hn := h
  unfold next at h
  split at h
  · split at h
    · rename_i q hc
      obtain rfl := readSlot_eq_eof h
      -- the cursor stands at the start of a half that has room, so this is no boundary again
      obtain ⟨hforward, hcap'⟩ := cross_eq_ok hc
      have hinside : p'.forward ≠ p'.capacity := by omega
      simp only [next, hinside, and_false, if_false]
      exact h
    · cases h
  · obtain rfl := readSlot_eq_eof h
    exact hn

end BufferPair

namespace Lexer

section
variable {capacity : Nat} {source : Source} {l : Lexer BufferPair}

theorem capacity_pos_after (h : ofSource capacity source = .ok l) {n : Nat} (hp : (l.after n).poisoned = false) :
    0 < (l.after n).cursor.capacity := by
  obtain ⟨p, hpair, rfl⟩ := ofSource_eq_ok h
  have hcap : capacity ≠ 0 := by
    rintro rfl
    cases hpair
  have hl := BufferPair.loaded_ofSource hpair
  have hloaded := ((BufferPair.respected_loaded capacity source 0).after (ofCursor p) (fun _ => hl) hl.hasLoaded n).1 hp
  rw [hloaded.1]
  exact Nat.pos_of_ne_zero hcap

theorem nextLocated_of_eof {row : Located} (hcap : 0 < l.cursor.capacity) (hr : l.nextLocated.1 = .ok row)
    (heof : row.token = .eof) : l.nextLocated.2.nextLocated = (.ok row, l.nextLocated.2) := by
  obtain ⟨hp, hp'⟩ := poisoned_of_nextLocated_ok hr
  obtain ⟨hs, hstart⟩ := scan_of_nextLocated hp hr
  rw [heof] at hs
  obtain ⟨s, hn, hmove⟩ := scan_eq_eof hs
  rw [nextLocated_of_scan hp', hmove]
  have hn' : Cursor.next s = (.eof, s) := BufferPair.next_of_eof hcap hn
  have hs' : (l.moveTo s).scan = (.ok .eof, l.moveTo s) := by simp only [scan, moveTo, hn']
  rw [hs', ← heof]
  show (Except.ok ⟨row.token, l.position⟩, l.moveTo s) = (Except.ok row, l.moveTo s)
  rw [← hstart]

theorem ask_of_final (h : ofSource capacity source = .ok l) {j : Nat} (hf : Final (l.result j)) (call : Call) :
    (l.after (j + 1)).ask call = (call.repeats (l.result j), l.after (j + 1)) := by
  cases hr : l.result j with
  | error e =>
    have hp : (l.after (j + 1)).poisoned = true := poisoned_of_nextLocated_error hr
    rw [ask_of_poisoned hp]
    cases call <;> rfl
  | ok row =>
    rw [hr] at hf
    have heof : row.token = .eof := hf
    obtain ⟨hp, hp'⟩ := poisoned_of_nextLocated_ok hr
    have hagain : (l.after (j + 1)).nextLocated = (.ok row, l.after (j + 1)) :=
      nextLocated_of_eof (capacity_pos_after h hp) hr heof
    have hp' : (l.after (j + 1)).poisoned = false := hp'
    rw [ask_of_not_poisoned hp', hagain]
    cases call with
    | item => simp only [Call.shows, Call.repeats, heof, if_true]
    | _ => rfl

theorem after_of_final (h : ofSource capacity source = .ok l) {j : Nat} (hf : Final (l.result j)) (m : Nat) :
    l.after (j + 1 + m) = l.after (j + 1) := by
  apply after_of_fixed
  rw [← ask_snd _ .located, ask_of_final h hf]

theorem poisoned_after (hp : l.poisoned = false) : ∀ {i : Nat}, (∀ j < i, ¬ Final (l.result j)) →
    (l.after i).poisoned = false
  | 0, _ => hp
  | i + 1, hrun => by
    have hi := hrun i (Nat.lt_succ_self i)
    cases hr : l.result i with
    | error e =>
      rw [hr] at hi
      exact absurd trivial hi
    | ok row => exact (poisoned_of_nextLocated_ok hr).2

end

/-- However the three ways to ask are mixed, each call shows its part of the result that asking for
located tokens only would give, up to the first error or the end of the input. Behind that the lexer
stays as it is, its position, its words and the reads of its source, and each call repeats the end
or says that the lexer has failed. -/
theorem calls_show_one_run (capacity : Nat) (source : Source) (l : Lexer BufferPair)
    (h : ofSource capacity source = .ok l) (calls : List Call) :
    (∀ i call, calls[i]? = some call → (∀ j < i, ¬ Final (l.result j)) →
        (l.askAll calls).1[i]? = some (call.shows (l.result i))) ∧
      ∀ j, Final (l.result j) → ∀ i > j,
        (l.askAll (calls.take i)).2 = (l.askAll (calls.take (j + 1))).2 ∧
        ∀ call, calls[i]? = some call → (l.askAll calls).1[i]? = some (call.repeats (l.result j)) := by
  refine ⟨fun i call hcall hrun => ?_, fun j hf i hi => ⟨?_, fun call hcall => ?_⟩⟩
  · obtain ⟨p, _, rfl⟩ := ofSource_eq_ok h
    have hp : (ofCursor p).poisoned = false := rfl
    rw [getElem?_askAll, hcall, Option.map_some, ask_of_not_poisoned (poisoned_after hp hrun)]
    rfl
  · rw [askAll_snd, askAll_snd, List.length_take, List.length_take]
    -- where there are too few calls to come to the final result, both are the lexer behind all of them
    by_cases hlen : calls.length ≤ j
    · rw [Nat.min_eq_right (by omega), Nat.min_eq_right (by omega)]
    · obtain ⟨m, hm⟩ : ∃ m, min i calls.length = j + 1 + m := ⟨min i calls.length - (j + 1), by omega⟩
      rw [hm, Nat.min_eq_left (by omega)]
      exact after_of_final h hf m
  · obtain ⟨m, rfl⟩ : ∃ m, i = j + 1 + m := ⟨i - (j + 1), by omega⟩
    rw [getElem?_askAll, hcall, after_of_final h hf m, Option.map_some, ask_of_final h hf]

theorem calls_show_one_run_past_close :
    ∃ l row, ofSource 1 (.ofEvents [.data [97], .close, .data [98]] none) = .ok l ∧
      l.result 1 = .ok row ∧ row.token = .eof ∧
      (l.askAll [.item, .token, .item, .located]).1[0]? = some (Call.item.shows (l.result 0)) ∧
      (l.askAll [.item, .token, .item, .located]).1[2]? = some (.item none) ∧
      (l.askAll [.item, .token, .item, .located]).1[3]? = some (.located (.ok row)) ∧
      (l.askAll [.item, .token, .item, .located]).2 = (l.askAll [.item, .token]).2 := by
  have hrun : ((ofSource 1 (.ofEvents [.data [97], .close, .data [98]] none)).toOption.map
      fun l => (l.result 1).toOption) = some (some ⟨.eof, Position.start.advance [97]⟩) := by decide +kernel
  cases h : ofSource 1 (.ofEvents [.data [97], .close, .data [98]] none) with
  | error e =>
    rw [h] at hrun
    cases hrun
  | ok l =>
    rw [h] at hrun
    have hresult : l.result 1 = .ok ⟨.eof, Position.start.advance [97]⟩ := by
      have hrun : (l.result 1).toOption = some ⟨.eof, Position.start.advance [97]⟩ := Option.some.inj hrun
      cases hr : l.result 1 with
      | error e => rw [hr] at hrun; cases hrun
      | ok row => rw [hr] at hrun; exact congrArg Except.ok (Option.some.inj hrun)
    obtain ⟨hshown, hfinal⟩ := calls_show_one_run 1 _ l h [.item, .token, .item, .located]
    have hend := hfinal 1 (by rw [hresult]; rfl)
    have hitem := (hend 2 (by omega)).2 .item rfl
    have hlocated := (hend 3 (by omega)).2 .located rfl
    rw [hresult] at hitem hlocated
    exact ⟨l, _, rfl, hresult, rfl, hshown 0 .item rfl (by omega), hitem, hlocated, (hend 4 (by omega)).1⟩

end Lexer

end StreamLexer
