/-
What `SingleFlight` gives a key's calls, in every state any interleaving of
calls, failures and dropped futures reaches.

- At most one call of a key runs its function at a time, none once one has
  succeeded, and no calls wait for nothing: while some calls of a key wait,
  one of its calls runs, or one of those that wait can go on
  (`singleFlight_exclusive`).
- The map holds a key exactly as long as a call of it is in flight, so a call
  that finds none starts fresh: a value it returns was made by a call that
  came after (`singleFlight_fresh`).

The invariant (`System.Inv`) counts: a cell in the map has one `Arc` for the
map and one for each call in flight, and its permit is taken exactly when one
of them is running.
-/
import Miscreant.SingleFlight
import Mathlib.Data.List.Basic

namespace Miscreant

namespace SingleFlight

variable {K T E : Type} {s s' : System K T E} {i : Nat} {call : Call K T E}

/-! ## What a step does -/

/-- What call `i` does in an action: the phase it ends in, and the cells
after it. -/
inductive Moves [DecidableEq K] (flights : SingleFlight K T) (i : Nat) (call : Call K T E) :
    Action K T E → Phase T E → SingleFlight K T → Prop
  | share {cell value} (hw : call.phase = .waiting) (hc : flights.cells call.cell = some cell)
      (hv : cell.value = some value) : Moves flights i call (.poll i) (.leaving (some (.ok value))) flights
  | run {cell} (hw : call.phase = .waiting) (hc : flights.cells call.cell = some cell) (hv : cell.value = none)
      (hb : cell.busy = false) :
      Moves flights i call (.poll i) .running (flights.modify call.cell fun cell => { cell with busy := true })
  | finish (value) (hr : call.phase = .running) :
      Moves flights i call (.finish i value) (.leaving (some (.ok value))) (flights.settle call.cell (some value))
  | fail (error) (hr : call.phase = .running) :
      Moves flights i call (.fail i error) (.leaving (some (.error error))) (flights.settle call.cell none)
  | drop (hw : call.phase = .waiting) : Moves flights i call (.cancel i) (.leaving none) flights
  | abort (hr : call.phase = .running) :
      Moves flights i call (.cancel i) (.leaving none) (flights.settle call.cell none)
  | leave {result} (hl : call.phase = .leaving result) :
      Moves flights i call (.leave i) (.returned result) (flights.leave call.key call.cell)

theorem poll_cases {flights : SingleFlight K T} {c : Nat} {x : FlightPoll T} {flights' : SingleFlight K T}
    (h : flights.poll c = (x, flights')) :
    (∃ cell value, flights.cells c = some cell ∧ cell.value = some value ∧ x = .ready value ∧ flights' = flights) ∨
    (∃ cell, flights.cells c = some cell ∧ cell.value = none ∧ cell.busy = false ∧ x = .run ∧
      flights' = flights.modify c fun cell => { cell with busy := true }) ∨ x = .pending := by
  unfold poll at h
  split at h
  · cases h
    exact .inr (.inr rfl)
  · rename_i cell hc
    split at h
    · rename_i value hv
      cases h
      exact .inl ⟨cell, value, hc, hv, rfl, rfl⟩
    · rename_i hv
      split at h
      · cases h
        exact .inr (.inr rfl)
      · rename_i hb
        cases h
        exact .inr (.inl ⟨cell, hc, hv, by simpa using hb, rfl, rfl⟩)

theorem step_cases [DecidableEq K] {a : Action K T E} (h : step s a = some s') :
    (∃ key, a = .enter key ∧
      s' = ⟨(s.flights.enter key).2, s.calls ++ [⟨key, (s.flights.enter key).1, .waiting⟩]⟩) ∨
    ∃ i call phase flights, s.calls[i]? = some call ∧ Moves s.flights i call a phase flights ∧
      s' = s.move i call phase flights := by
  cases a with
  | enter key =>
    cases h
    exact .inl ⟨key, rfl, rfl⟩
  | poll i =>
    right
    simp only [step] at h
    split at h
    · rename_i call hi
      split at h
      · rename_i value flights hw hp
        cases h
        rcases poll_cases hp with ⟨cell, value', hc, hv, hx, rfl⟩ | ⟨_, _, _, _, hx, _⟩ | hx <;> cases hx
        exact ⟨i, call, _, _, hi, .share hw hc hv, rfl⟩
      · rename_i flights hw hp
        cases h
        rcases poll_cases hp with ⟨_, _, _, _, hx, _⟩ | ⟨cell, hc, hv, hb, hx, rfl⟩ | hx <;> cases hx
        exact ⟨i, call, _, _, hi, .run hw hc hv hb, rfl⟩
      · cases h
    · cases h
  | finish i value =>
    right
    simp only [step] at h
    split at h
    · rename_i call hi
      split at h
      · rename_i hr
        cases h
        exact ⟨i, call, _, _, hi, .finish value hr, rfl⟩
      · cases h
    · cases h
  | fail i error =>
    right
    simp only [step] at h
    split at h
    · rename_i call hi
      split at h
      · rename_i hr
        cases h
        exact ⟨i, call, _, _, hi, .fail error hr, rfl⟩
      · cases h
    · cases h
  | cancel i =>
    right
    simp only [step] at h
    split at h
    · rename_i call hi
      split at h
      · rename_i hw
        cases h
        exact ⟨i, call, _, _, hi, .drop hw, rfl⟩
      · rename_i hr
        cases h
        exact ⟨i, call, _, _, hi, .abort hr, rfl⟩
      · cases h
    · cases h
  | leave i =>
    right
    simp only [step] at h
    split at h
    · rename_i call hi
      split at h
      · rename_i result hl
        cases h
        exact ⟨i, call, _, _, hi, .leave hl, rfl⟩
      · cases h
    · cases h

/-! ## The invariant -/

/-- The calls that hold a cell's guard. -/
def holders (calls : List (Call K T E)) (c : Nat) : Nat :=
  calls.countP fun call => call.cell = c && call.phase.live

/-- The calls that run with a cell's permit. -/
def runners (calls : List (Call K T E)) (c : Nat) : Nat :=
  calls.countP fun call => call.cell = c && call.phase.isRunning

theorem countP_set (p : Call K T E → Bool) {calls : List (Call K T E)} (hi : calls[i]? = some call)
    (call' : Call K T E) : (calls.set i call').countP p + (p call).toNat = calls.countP p + (p call').toNat := by
  obtain ⟨hlt, hget⟩ := List.getElem?_eq_some_iff.1 hi
  have hset := List.countP_set (p := p) (a := call') hlt
  have hpos : p call = true → 0 < calls.countP p := fun hp => List.countP_pos_iff.2 ⟨call, List.mem_of_getElem? hi, hp⟩
  rw [hset, hget]
  cases hp : p call <;> cases hp' : p call' <;> simp_all

/-- A call that moves changes the count of its own cell only. -/
theorem holders_set {calls : List (Call K T E)} (hi : calls[i]? = some call) (phase : Phase T E) (c : Nat) :
    holders (calls.set i { call with phase }) c + (if call.cell = c then call.phase.live.toNat else 0) =
      holders calls c + (if call.cell = c then phase.live.toNat else 0) := by
  have h := countP_set (fun call => call.cell = c && call.phase.live) hi { call with phase }
  by_cases hc : call.cell = c <;> simpa [holders, hc] using h

theorem runners_set {calls : List (Call K T E)} (hi : calls[i]? = some call) (phase : Phase T E) (c : Nat) :
    runners (calls.set i { call with phase }) c + (if call.cell = c then call.phase.isRunning.toNat else 0) =
      runners calls c + (if call.cell = c then phase.isRunning.toNat else 0) := by
  have h := countP_set (fun call => call.cell = c && call.phase.isRunning) hi { call with phase }
  by_cases hc : call.cell = c <;> simpa [runners, hc] using h

/-- A cell in the map under `key`, among some calls. -/
structure InMap (calls : List (Call K T E)) (key : K) (c : Nat) (cell : FlightCell K T) : Prop where
  key_eq : cell.key = key
  strong : cell.strong = holders calls c + 1
  held : 0 < holders calls c
  permit : runners calls c = cell.busy.toNat
  empty : cell.busy = true → cell.value = none

structure System.Inv (s : System K T E) : Prop where
  unborn : ∀ c, s.flights.next ≤ c → s.flights.cells c = none
  held : ∀ call ∈ s.calls, call.phase.live = true → s.flights.inFlight call.key = some call.cell
  mapped : ∀ key c, s.flights.inFlight key = some c → ∃ cell, s.flights.cells c = some cell ∧ InMap s.calls key c cell

theorem System.inv_start : (System.start : System K T E).Inv where
  unborn _ _ := rfl
  held _ h := absurd h (by simp [start])
  mapped _ _ h := by cases h

/-- The cell of a call in flight. -/
theorem System.Inv.cell (h : s.Inv) (hi : s.calls[i]? = some call) (hlive : call.phase.live = true) :
    ∃ cell, s.flights.inFlight call.key = some call.cell ∧ s.flights.cells call.cell = some cell ∧
      InMap s.calls call.key call.cell cell := by
  have hheld := h.held call (List.mem_of_getElem? hi) hlive
  obtain ⟨cell, hc, hmap⟩ := h.mapped _ _ hheld
  exact ⟨cell, hheld, hc, hmap⟩

/-- Two keys never share a cell. -/
theorem System.Inv.key_unique (h : s.Inv) {key key' : K} {c : Nat} (hk : s.flights.inFlight key = some c)
    (hk' : s.flights.inFlight key' = some c) : key = key' := by
  obtain ⟨cell, hc, hmap⟩ := h.mapped key c hk
  obtain ⟨cell', hc', hmap'⟩ := h.mapped key' c hk'
  cases hc.symm.trans hc'
  rw [← hmap.key_eq, hmap'.key_eq]

theorem holders_append (calls : List (Call K T E)) (key : K) (c c' : Nat) :
    holders (calls ++ [⟨key, c, .waiting⟩]) c' = holders calls c' + (if c = c' then 1 else 0) := by
  by_cases hc : c = c' <;> simp [holders, hc, Phase.live]

theorem runners_append (calls : List (Call K T E)) (key : K) (c c' : Nat) :
    runners (calls ++ [⟨key, c, .waiting⟩]) c' = runners calls c' := by
  simp [runners, Phase.isRunning]

/-- No call holds a cell that has not been made. -/
theorem System.Inv.holders_unborn (h : s.Inv) {c : Nat} (hc : s.flights.next ≤ c) :
    holders s.calls c = 0 ∧ runners s.calls c = 0 := by
  have hnone : ∀ call ∈ s.calls, call.cell = c → call.phase.live = false := by
    intro call hmem hcell
    by_contra hlive
    obtain ⟨cell, hget, -⟩ := h.mapped _ _ (h.held call hmem (by simpa using hlive))
    rw [hcell, h.unborn c hc] at hget
    cases hget
  refine ⟨List.countP_eq_zero.2 fun call hmem => ?_, List.countP_eq_zero.2 fun call hmem => ?_⟩
  · by_cases hcell : call.cell = c
    · simp [hnone call hmem hcell]
    · simp [hcell]
  · by_cases hcell : call.cell = c
    · have hlive := hnone call hmem hcell
      cases hphase : call.phase <;> simp_all [Phase.live, Phase.isRunning]
    · simp [hcell]

theorem System.Inv.enter [DecidableEq K] (h : s.Inv) (key : K) :
    System.Inv ⟨(s.flights.enter key).2, s.calls ++ [(⟨key, (s.flights.enter key).1, .waiting⟩ : Call K T E)]⟩ := by
  unfold SingleFlight.enter
  split
  · rename_i c hk
    refine ⟨fun c' hc' => ?_, fun call hmem hlive => ?_, fun key' c' hk' => ?_⟩
    · obtain ⟨cell, hcell, -⟩ := h.mapped _ _ hk
      have hne : c' ≠ c := by
        rintro rfl
        exact absurd (h.unborn c' hc') (by simp [hcell])
      simpa [modify, hne] using h.unborn c' hc'
    · rcases List.mem_append.1 hmem with hmem | hmem
      · exact h.held call hmem hlive
      · rw [List.mem_singleton.1 hmem]
        exact hk
    · obtain ⟨cell, hcell, hmap⟩ := h.mapped key' c' hk'
      by_cases hc : c = c'
      · subst hc
        refine ⟨{ cell with strong := cell.strong + 1 }, by simp [modify, hcell], hmap.key_eq, ?_, ?_, ?_, hmap.empty⟩
        · simp [holders_append, hmap.strong]
        · simp [holders_append]
        · simp [runners_append, hmap.permit]
      · refine ⟨cell, by simpa [modify, Ne.symm hc] using hcell, hmap.key_eq, ?_, ?_, ?_, hmap.empty⟩
        · simp [holders_append, hc, hmap.strong]
        · simp [holders_append, hc, hmap.held]
        · simp [runners_append, hmap.permit]
  · rename_i hk
    obtain ⟨hholders, hrunners⟩ := h.holders_unborn (Nat.le_refl s.flights.next)
    refine ⟨fun c' hc' => ?_, fun call hmem hlive => ?_, fun key' c' hk' => ?_⟩
    · have hne : c' ≠ s.flights.next := by
        simp only at hc'
        omega
      simpa [hne] using h.unborn c' (by simp only at hc'; omega)
    · rcases List.mem_append.1 hmem with hmem | hmem
      · have hheld := h.held call hmem hlive
        have hne : call.key ≠ key := by
          rintro rfl
          rw [hk] at hheld
          cases hheld
        simpa [hne] using hheld
      · rw [List.mem_singleton.1 hmem]
        simp
    · by_cases hkey : key' = key
      · subst hkey
        obtain rfl : s.flights.next = c' := by simpa using hk'
        refine ⟨⟨key', none, false, 2⟩, by simp, rfl, ?_, ?_, ?_, fun _ => rfl⟩
        · simp [holders_append, hholders]
        · simp [holders_append]
        · simp [runners_append, hrunners]
      · replace hk' : s.flights.inFlight key' = some c' := by simpa [hkey] using hk'
        obtain ⟨cell, hcell, hmap⟩ := h.mapped key' c' hk'
        have hne : s.flights.next ≠ c' := by
          rintro rfl
          exact absurd (h.unborn _ (Nat.le_refl _)) (by simp [hcell])
        refine ⟨cell, by simpa [Ne.symm hne] using hcell, hmap.key_eq, ?_, ?_, ?_, hmap.empty⟩
        · simp [holders_append, hne, hmap.strong]
        · simp [holders_append, hne, hmap.held]
        · simp [runners_append, hmap.permit]

/-- A call that goes on in flight, and writes its cell: the permit it takes
or gives back is the one counted for it. -/
theorem System.Inv.update (h : s.Inv) (hi : s.calls[i]? = some call) (hlive : call.phase.live = true)
    {phase : Phase T E} (hphase : phase.live = true) {f : FlightCell K T → FlightCell K T}
    (hkey : ∀ cell, (f cell).key = cell.key ∧ (f cell).strong = cell.strong)
    (hf : ∀ cell, s.flights.cells call.cell = some cell → (cell.busy = true → cell.value = none) →
      (call.phase.isRunning = true → cell.busy = true) →
      cell.busy.toNat + phase.isRunning.toNat = (f cell).busy.toNat + call.phase.isRunning.toNat ∧
      ((f cell).busy = true → (f cell).value = none)) :
    (s.move i call phase (s.flights.modify call.cell f)).Inv := by
  obtain ⟨own, hheld, hown, hmap⟩ := h.cell hi hlive
  refine ⟨fun c hc => ?_, fun call' hmem hlive' => ?_, fun key c hk => ?_⟩
  · have hne : c ≠ call.cell := by
      rintro rfl
      exact absurd (h.unborn _ hc) (by simp [hown])
    simpa [move, modify, hne] using h.unborn c hc
  · rcases List.mem_or_eq_of_mem_set hmem with hmem | rfl
    · exact h.held call' hmem hlive'
    · exact hheld
  · obtain ⟨cell, hcell, hmap'⟩ := h.mapped key c hk
    have hholders := holders_set hi phase c
    have hrunners := runners_set hi phase c
    by_cases hc : call.cell = c
    · subst hc
      cases hown.symm.trans hcell
      have hrun : call.phase.isRunning = true → own.busy = true := by
        intro hr
        have hpos : 0 < runners s.calls call.cell :=
          List.countP_pos_iff.2 ⟨call, List.mem_of_getElem? hi, by simp [hr]⟩
        rw [hmap'.permit] at hpos
        cases hbusy : own.busy with
        | true => rfl
        | false => simp [hbusy] at hpos
      obtain ⟨hbusy, hempty⟩ := hf own hown hmap'.empty hrun
      simp only [if_true, hlive, hphase] at hholders hrunners
      refine ⟨f own, by simp [move, modify, hown], (hkey own).1.trans hmap'.key_eq, ?_, ?_, ?_, hempty⟩
      · rw [(hkey own).2, hmap'.strong]
        simp only [move]
        omega
      · have := hmap'.held
        simp only [move]
        omega
      · have := hmap'.permit
        simp only [move]
        omega
    · simp only [hc, if_false, Nat.add_zero] at hholders hrunners
      exact ⟨cell, by simpa [move, modify, Ne.symm hc] using hcell, hmap'.key_eq, by rw [hmap'.strong, move, hholders],
        by rw [move, hholders]; exact hmap'.held, by rw [move, hrunners]; exact hmap'.permit, hmap'.empty⟩

theorem modify_id (flights : SingleFlight K T) (c : Nat) : flights.modify c id = flights := by
  simp [modify]

theorem live_of_phase {phase : Phase T E} (h : phase = .waiting ∨ phase = .running) : phase.live = true := by
  rcases h with rfl | rfl <;> rfl

/-- The last call of a cell takes it out of the map. -/
theorem System.Inv.leave [DecidableEq K] (h : s.Inv) (hi : s.calls[i]? = some call) {result : Option (Except E T)}
    (hl : call.phase = .leaving result) :
    (s.move i call (.returned result) (s.flights.leave call.key call.cell)).Inv := by
  have hlive : call.phase.live = true := by rw [hl]; rfl
  obtain ⟨own, hheld, hown, hmap⟩ := h.cell hi hlive
  have hholders := holders_set hi (.returned result)
  have hrunners := runners_set hi (.returned result)
  simp only [hl, Phase.live, Phase.isRunning, Bool.toNat_true, Bool.toNat_false, ite_self, Nat.add_zero]
    at hholders hrunners
  have hcount : holders (s.calls.set i { call with phase := .returned result }) call.cell + 1 =
      holders s.calls call.cell := by simpa using hholders call.cell
  -- the other cells are as before, and so are the calls that hold them
  have hother : ∀ key c, c ≠ call.cell → s.flights.inFlight key = some c → ∃ cell, s.flights.cells c = some cell ∧
      InMap (s.calls.set i { call with phase := .returned result }) key c cell := by
    intro key c hc hk
    obtain ⟨cell, hcell, hmap'⟩ := h.mapped key c hk
    have hsame := hholders c
    rw [if_neg (Ne.symm hc), Nat.add_zero] at hsame
    exact ⟨cell, hcell, hmap'.key_eq, by rw [hsame]; exact hmap'.strong, by rw [hsame]; exact hmap'.held,
      by rw [hrunners]; exact hmap'.permit, hmap'.empty⟩
  have hunborn : ∀ c, s.flights.next ≤ c → c ≠ call.cell := by
    rintro c hc rfl
    exact absurd (h.unborn _ hc) (by simp [hown])
  unfold SingleFlight.leave
  simp only [modify, hheld, Function.update_self, hown, Option.map_some]
  split
  · rename_i hone
    have hnone : holders (s.calls.set i { call with phase := .returned result }) call.cell = 0 := by
      have := hmap.strong
      simp only [Option.some.injEq] at hone
      omega
    refine ⟨fun c hc => ?_, fun call' hmem hlive' => ?_, fun key c hk => ?_⟩
    · simpa [move, hunborn c hc] using h.unborn c hc
    · have hne : call'.key ≠ call.key := by
        intro hkey
        rcases List.mem_or_eq_of_mem_set hmem with hmem' | rfl
        · have hheld' := h.held call' hmem' hlive'
          rw [hkey, hheld] at hheld'
          have hzero := List.countP_eq_zero.1 hnone call' hmem
          simp [← Option.some.inj hheld', hlive'] at hzero
        · cases hlive'
      rcases List.mem_or_eq_of_mem_set hmem with hmem' | rfl
      · simpa [move, hne] using h.held call' hmem' hlive'
      · cases hlive'
    · have hne : key ≠ call.key := by
        rintro rfl
        simp [move] at hk
      replace hk : s.flights.inFlight key = some c := by simpa [move, hne] using hk
      have hc : c ≠ call.cell := by
        rintro rfl
        exact hne (h.key_unique hk hheld)
      obtain ⟨cell, hcell, hmap'⟩ := hother key c hc hk
      exact ⟨cell, by simpa [move, hc] using hcell, hmap'⟩
  · rename_i hmore
    refine ⟨fun c hc => ?_, fun call' hmem hlive' => ?_, fun key c hk => ?_⟩
    · simpa [move, hunborn c hc] using h.unborn c hc
    · rcases List.mem_or_eq_of_mem_set hmem with hmem' | rfl
      · exact h.held call' hmem' hlive'
      · cases hlive'
    · by_cases hc : c = call.cell
      · subst hc
        obtain rfl := h.key_unique hk hheld
        have hstrong := hmap.strong
        simp only [Option.some.injEq] at hmore
        refine ⟨{ own with strong := own.strong - 1 }, by simp [move], hmap.key_eq, ?_, ?_, ?_, hmap.empty⟩
        · simp only [move]
          omega
        · simp only [move]
          omega
        · rw [move, hrunners]
          exact hmap.permit
      · obtain ⟨cell, hcell, hmap'⟩ := hother key c hc hk
        exact ⟨cell, by simpa [move, hc] using hcell, hmap'⟩

theorem System.Inv.moves [DecidableEq K] (h : s.Inv) (hi : s.calls[i]? = some call) {a : Action K T E}
    {phase : Phase T E} {flights : SingleFlight K T} (hm : Moves s.flights i call a phase flights) :
    (s.move i call phase flights).Inv := by
  cases hm with
  | @share cell value hw hc hv =>
    have hupdate : (s.move i call (.leaving (some (.ok value))) (s.flights.modify call.cell id)).Inv :=
      h.update hi (live_of_phase (.inl hw)) rfl (fun _ => ⟨rfl, rfl⟩) fun cell _ hempty _ => by simp [hw, Phase.isRunning]; exact hempty
    rwa [modify_id] at hupdate
  | @run cell hw hc hv hb =>
    refine h.update hi (live_of_phase (.inl hw)) rfl (fun _ => ⟨rfl, rfl⟩) fun cell' hc' _ _ => ?_
    cases hc.symm.trans hc'
    simp [hw, hv, hb, Phase.isRunning]
  | finish value hr =>
    exact h.update hi (live_of_phase (.inr hr)) rfl (fun _ => ⟨rfl, rfl⟩) fun cell _ _ hbusy => by
      simp [hr, Phase.isRunning, hbusy (by rw [hr]; rfl)]
  | fail error hr =>
    exact h.update hi (live_of_phase (.inr hr)) rfl (fun _ => ⟨rfl, rfl⟩) fun cell _ _ hbusy => by
      simp [hr, Phase.isRunning, hbusy (by rw [hr]; rfl)]
  | drop hw =>
    have hupdate : (s.move i call (.leaving none) (s.flights.modify call.cell id)).Inv :=
      h.update hi (live_of_phase (.inl hw)) rfl (fun _ => ⟨rfl, rfl⟩) fun cell _ hempty _ => by simp [hw, Phase.isRunning]; exact hempty
    rwa [modify_id] at hupdate
  | abort hr =>
    exact h.update hi (live_of_phase (.inr hr)) rfl (fun _ => ⟨rfl, rfl⟩) fun cell _ _ hbusy => by
      simp [hr, Phase.isRunning, hbusy (by rw [hr]; rfl)]
  | leave hl => exact h.leave hi hl

theorem System.Inv.step [DecidableEq K] (h : s.Inv) {a : Action K T E} (hstep : step s a = some s') : s'.Inv := by
  rcases step_cases hstep with ⟨key, rfl, rfl⟩ | ⟨i, call, phase, flights, hi, hm, rfl⟩
  · exact h.enter key
  · exact h.moves hi hm

theorem Runs.inv [DecidableEq K] {acts : List (Action K T E)} (hrun : Runs s acts s') (h : s.Inv) : s'.Inv := by
  induction hrun with
  | nil => exact h
  | snoc _ hstep ih => exact ih.step hstep

/-! ## One run at a time -/

/-- What holds of the calls of every key. -/
structure Coalesced [DecidableEq K] (s : System K T E) : Prop where
  /-- Two running calls of a key are one. -/
  exclusive : ∀ (i j : Nat) (call call' : Call K T E), s.calls[i]? = some call → s.calls[j]? = some call' → call.key = call'.key →
    call.phase.isRunning = true → call'.phase.isRunning = true → i = j
  /-- The map holds the keys of the calls in flight, and no others. -/
  inFlight : ∀ key, (s.flights.inFlight key).isSome = true ↔ ∃ call ∈ s.calls, call.key = key ∧ call.phase.live = true
  /-- A key's cell that has a value is not run for again. -/
  settled : ∀ key c cell value, s.flights.inFlight key = some c → s.flights.cells c = some cell →
    cell.value = some value → ∀ call ∈ s.calls, call.key = key → call.phase.isRunning = false

theorem live_of_running {phase : Phase T E} (h : phase.isRunning = true) : phase.live = true := by
  cases phase <;> first | rfl | cases h

/-- The calls counted at one place leave none to be counted elsewhere. -/
theorem System.Inv.exclusive (h : s.Inv) {j : Nat} {call' : Call K T E} (hi : s.calls[i]? = some call)
    (hj : s.calls[j]? = some call') (hkey : call.key = call'.key) (hr : call.phase.isRunning = true)
    (hr' : call'.phase.isRunning = true) : i = j := by
  by_contra hne
  obtain ⟨cell, hheld, -, hmap⟩ := h.cell hi (live_of_running hr)
  have hheld' := h.held call' (List.mem_of_getElem? hj) (live_of_running hr')
  rw [← hkey, hheld] at hheld'
  have hset := runners_set hi (.returned none) call.cell
  have hmem : call' ∈ s.calls.set i { call with phase := .returned none } :=
    List.mem_of_getElem? (by rw [List.getElem?_set_ne hne]; exact hj)
  have hpos : 0 < runners (s.calls.set i { call with phase := .returned none }) call.cell :=
    List.countP_pos_iff.2 ⟨call', hmem, by simp [hr', Option.some.inj hheld']⟩
  have hle : cell.busy.toNat ≤ 1 := Bool.toNat_le cell.busy
  have hreturned : (Phase.returned none : Phase T E).isRunning = false := rfl
  simp only [if_true, hr, Bool.toNat_true, hmap.permit, hreturned, Bool.toNat_false] at hset
  omega

theorem System.Inv.runs_iff (h : s.Inv) {key : K} {c : Nat} {cell : FlightCell K T}
    (hk : s.flights.inFlight key = some c) (hc : s.flights.cells c = some cell) :
    cell.busy = true ↔ ∃ call ∈ s.calls, call.key = key ∧ call.phase.isRunning = true := by
  obtain ⟨cell', hc', hmap⟩ := h.mapped key c hk
  cases hc.symm.trans hc'
  have hpermit := hmap.permit
  constructor
  · intro hb
    rw [hb] at hpermit
    obtain ⟨call, hmem, hcall⟩ := List.countP_pos_iff.1 (show 0 < runners s.calls c by rw [hpermit]; decide)
    simp only [Bool.and_eq_true, decide_eq_true_eq] at hcall
    have hheld := h.held call hmem (live_of_running hcall.2)
    rw [hcall.1] at hheld
    exact ⟨call, hmem, h.key_unique hheld hk, hcall.2⟩
  · rintro ⟨call, hmem, rfl, hr⟩
    have hheld := h.held call hmem (live_of_running hr)
    rw [hk] at hheld
    have hpos : 0 < runners s.calls c :=
      List.countP_pos_iff.2 ⟨call, hmem, by simp [hr, Option.some.inj hheld]⟩
    cases hbusy : cell.busy with
    | true => rfl
    | false => simp [hpermit, hbusy] at hpos

theorem System.Inv.coalesced [DecidableEq K] (h : s.Inv) : Coalesced s where
  exclusive i j call call' hi hj hkey hr hr' := h.exclusive hi hj hkey hr hr'
  inFlight key := by
    constructor
    · intro hsome
      obtain ⟨c, hk⟩ := Option.isSome_iff_exists.1 hsome
      obtain ⟨cell, -, hmap⟩ := h.mapped key c hk
      obtain ⟨call, hmem, hcall⟩ := List.countP_pos_iff.1 hmap.held
      simp only [Bool.and_eq_true, decide_eq_true_eq] at hcall
      have hheld := h.held call hmem hcall.2
      rw [hcall.1] at hheld
      exact ⟨call, hmem, h.key_unique hheld hk, hcall.2⟩
    · rintro ⟨call, hmem, rfl, hlive⟩
      rw [h.held call hmem hlive]
      rfl
  settled key c cell value hk hc hv call hmem hkey := by
    by_contra hr
    have hb := (h.runs_iff hk hc).2 ⟨call, hmem, hkey, by simpa using hr⟩
    obtain ⟨cell', hc', hmap⟩ := h.mapped key c hk
    cases hc.symm.trans hc'
    rw [hmap.empty hb] at hv
    cases hv

theorem runs_steps [DecidableEq K] : ∀ {acts before : List (Action K T E)} {s₀ s s' : System K T E},
    Runs s₀ before s → steps s acts = some s' → Runs s₀ (before ++ acts) s'
  | [], before, _, _, _, h, hs => by
    cases hs
    rwa [List.append_nil]
  | a :: acts, before, _, _, _, h, hs => by
    obtain ⟨s₁, hstep, hs⟩ := Option.bind_eq_some_iff.1 hs
    have hrun := runs_steps (h.snoc hstep) hs
    rwa [List.append_assoc, List.singleton_append] at hrun

/-! ## The queue -/

/-- What a step of the queued system is. -/
inductive Queued.Steps [DecidableEq K] (s : Queued K T E) : Action K T E → Queued K T E → Prop
  | enter {key system} (hstep : SingleFlight.step s.system (.enter key) = some system) :
      Steps s (.enter key) { s with system }
  | leave {i : Nat} {system} (hstep : SingleFlight.step s.system (.leave i) = some system) : Steps s (.leave i) { s with system }
  | serve {i : Nat} {call : Call K T E} {system} (hi : s.system.calls[i]? = some call)
      (hq : (s.queues call.cell).granted = none ∨ (s.queues call.cell).granted = some i)
      (hstep : SingleFlight.step s.system (.poll i) = some system) :
      Steps s (.poll i) (s.next call.cell system ((s.queues call.cell).serve i))
  | join {i : Nat} {call : Call K T E} (hi : s.system.calls[i]? = some call) (hw : call.phase = .waiting)
      (hq : (s.queues call.cell).granted.isSome = true ∨ SingleFlight.step s.system (.poll i) = none) :
      Steps s (.poll i) (s.next call.cell s.system ((s.queues call.cell).join i))
  | finish {i : Nat} {call : Call K T E} {value system} (hi : s.system.calls[i]? = some call)
      (hstep : SingleFlight.step s.system (.finish i value) = some system) :
      Steps s (.finish i value) (s.next call.cell system ⟨[], none⟩)
  | fail {i : Nat} {call : Call K T E} {error system} (hi : s.system.calls[i]? = some call)
      (hstep : SingleFlight.step s.system (.fail i error) = some system) :
      Steps s (.fail i error) (s.next call.cell system (s.queues call.cell).release)
  | cancel {i : Nat} {call : Call K T E} {system} (hi : s.system.calls[i]? = some call)
      (hstep : SingleFlight.step s.system (.cancel i) = some system) :
      Steps s (.cancel i) (s.next call.cell system
        (if call.phase.isRunning then (s.queues call.cell).release else (s.queues call.cell).quit i))

theorem Queued.steps_of_step [DecidableEq K] {s s' : Queued K T E} {a : Action K T E} (h : s.step a = some s') :
    Queued.Steps s a s' := by
  cases a with
  | enter key =>
    cases h
    exact .enter rfl
  | leave i =>
    obtain ⟨system, hstep, rfl⟩ := Option.map_eq_some_iff.1 h
    exact .leave hstep
  | poll i =>
    simp only [Queued.step] at h
    split at h
    · rename_i call hi
      split at h
      · rename_i system hw hstep
        split at h
        · rename_i hq
          cases h
          exact .serve hi hq hstep
        · rename_i hq
          cases h
          refine .join hi hw (.inl ?_)
          rw [not_or] at hq
          exact Option.isSome_iff_ne_none.2 hq.1
      · rename_i hw hstep
        cases h
        exact .join hi hw (.inr hstep)
      · cases h
    · cases h
  | finish i value =>
    simp only [Queued.step] at h
    split at h
    · rename_i call system hi hstep
      cases h
      exact .finish hi hstep
    · cases h
  | fail i error =>
    simp only [Queued.step] at h
    split at h
    · rename_i call system hi hstep
      cases h
      exact .fail hi hstep
    · cases h
  | cancel i =>
    simp only [Queued.step] at h
    split at h
    · rename_i call system hi hstep
      cases h
      exact .cancel hi hstep
    · cases h

/-- The queue only decides who goes on: a step is one of the system without
it, or leaves that as it was. -/
theorem Queued.Steps.refines [DecidableEq K] {s s' : Queued K T E} {a : Action K T E} (h : Queued.Steps s a s') :
    SingleFlight.step s.system a = some s'.system ∨ s'.system = s.system := by
  cases h with
  | enter hstep | leave hstep | serve _ _ hstep | finish _ hstep | fail _ hstep | cancel _ hstep => exact .inl hstep
  | join => exact .inr rfl

theorem Queued.Runs.refines [DecidableEq K] {s s' : Queued K T E} {acts : List (Action K T E)}
    (h : Queued.Runs s acts s') : ∃ acts', acts'.Sublist acts ∧ SingleFlight.Runs s.system acts' s'.system := by
  induction h with
  | nil => exact ⟨[], .slnil, .nil⟩
  | @snoc acts s' a s'' _ hstep ih =>
    obtain ⟨acts', hsub, hrun⟩ := ih
    rcases (Queued.steps_of_step hstep).refines with hstep' | hsame
    · exact ⟨acts' ++ [a], hsub.append (.refl _), hrun.snoc hstep'⟩
    · exact ⟨acts', hsub.trans (List.sublist_append_left ..), by rwa [hsame]⟩

/-- Call `i` waits at a cell. -/
def System.WaitsAt (s : System K T E) (i c : Nat) : Prop :=
  ∃ call, s.calls[i]? = some call ∧ call.cell = c ∧ call.phase = .waiting

/-- What a cell holds is as before. -/
def SameCell (flights flights' : SingleFlight K T) (c : Nat) : Prop :=
  ∀ cell, flights.cells c = some cell →
    ∃ cell', flights'.cells c = some cell' ∧ cell'.busy = cell.busy ∧ cell'.value = cell.value

theorem SameCell.refl (flights : SingleFlight K T) (c : Nat) : SameCell flights flights c := fun cell hc => ⟨cell, hc, rfl, rfl⟩

theorem SameCell.modify (flights : SingleFlight K T) (c₀ c : Nat) {f : FlightCell K T → FlightCell K T}
    (hf : c = c₀ → ∀ cell, (f cell).busy = cell.busy ∧ (f cell).value = cell.value) :
    SameCell flights (flights.modify c₀ f) c := by
  intro cell hc
  by_cases heq : c = c₀
  · subst heq
    exact ⟨f cell, by simp [SingleFlight.modify, hc], hf rfl cell⟩
  · exact ⟨cell, by simpa [SingleFlight.modify, heq] using hc, rfl, rfl⟩

theorem SameCell.trans {flights flights' flights'' : SingleFlight K T} {c : Nat} (h : SameCell flights flights' c)
    (h' : SameCell flights' flights'' c) : SameCell flights flights'' c := by
  intro cell hc
  obtain ⟨cell', hc', hb, hv⟩ := h cell hc
  obtain ⟨cell'', hc'', hb', hv'⟩ := h' cell' hc'
  exact ⟨cell'', hc'', hb'.trans hb, hv'.trans hv⟩

theorem sameCell_leave [DecidableEq K] (flights : SingleFlight K T) (key : K) (c₀ c : Nat) :
    SameCell flights (flights.leave key c₀) c := by
  have hfirst : SameCell flights (flights.modify c₀ fun cell => { cell with strong := cell.strong - 1 }) c :=
    .modify flights c₀ c fun _ _ => ⟨rfl, rfl⟩
  unfold SingleFlight.leave
  dsimp only
  split
  · exact hfirst
  · rename_i c' _
    split
    · have hsecond := @SameCell.modify K T (flights.modify c₀ fun cell => { cell with strong := cell.strong - 1 }) c' c
        (fun cell => { cell with strong := 0 }) fun _ _ => ⟨rfl, rfl⟩
      exact hfirst.trans hsecond
    · exact hfirst

theorem sameCell_enter [DecidableEq K] (h : s.Inv) (key : K) (c : Nat) :
    SameCell s.flights (s.flights.enter key).2 c := by
  unfold SingleFlight.enter
  split
  · exact .modify s.flights _ c fun _ _ => ⟨rfl, rfl⟩
  · intro cell hc
    have hne : c ≠ s.flights.next := by
      rintro rfl
      exact absurd (h.unborn _ (Nat.le_refl _)) (by simp [hc])
    exact ⟨cell, by simpa [hne] using hc, rfl, rfl⟩

/-- A queue among some calls: those in it wait, the one that has the permit
handed to it finds it, and none is queued without a reason. -/
structure Queue.Inv (s : System K T E) (c : Nat) (q : Queue) : Prop where
  waiting : ∀ i ∈ q.waiting, s.WaitsAt i c
  granted : ∀ i, q.granted = some i → s.WaitsAt i c ∧
    ∃ cell, s.flights.cells c = some cell ∧ cell.busy = false ∧ cell.value = none
  attended : q.waiting ≠ [] → q.granted.isSome = true ∨ ∃ cell, s.flights.cells c = some cell ∧ cell.busy = true

theorem Queue.inv_empty (s : System K T E) (c : Nat) : Queue.Inv s c ⟨[], none⟩ :=
  ⟨fun _ h => (nomatch h), fun _ h => (nomatch h), fun h => absurd rfl h⟩

/-- A queue whose calls still wait, at a cell that holds what it held. -/
theorem Queue.Inv.frame {c : Nat} {q : Queue} (h : Queue.Inv s c q) (hwaits : ∀ i, s.WaitsAt i c → s'.WaitsAt i c)
    (hcell : SameCell s.flights s'.flights c) : Queue.Inv s' c q where
  waiting i hi := hwaits i (h.waiting i hi)
  granted i hi := by
    obtain ⟨hw, cell, hc, hb, hv⟩ := h.granted i hi
    obtain ⟨cell', hc', hb', hv'⟩ := hcell cell hc
    exact ⟨hwaits i hw, cell', hc', hb'.trans hb, hv'.trans hv⟩
  attended hne := by
    rcases h.attended hne with hgranted | ⟨cell, hc, hb⟩
    · exact .inl hgranted
    · obtain ⟨cell', hc', hb', -⟩ := hcell cell hc
      exact .inr ⟨cell', hc', hb'.trans hb⟩

/-- The permit is given back to the head of the queue. -/
theorem Queue.inv_release {c : Nat} {q : Queue} (hwaits : ∀ i ∈ q.waiting, s.WaitsAt i c)
    (hcell : ∃ cell, s.flights.cells c = some cell ∧ cell.busy = false ∧ cell.value = none) :
    Queue.Inv s c q.release := by
  unfold Queue.release
  split
  · exact Queue.inv_empty s c
  · rename_i i waiting hq
    rw [hq] at hwaits
    refine ⟨fun j hj => hwaits j (List.mem_cons_of_mem _ hj), fun j hj => ?_, fun _ => .inl rfl⟩
    cases hj
    exact ⟨hwaits i (List.mem_cons_self ..), hcell⟩

/-- Another call moves. -/
theorem System.WaitsAt.move {i j c : Nat} {call : Call K T E} {phase : Phase T E} {flights : SingleFlight K T}
    (h : s.WaitsAt j c) (hne : j ≠ i) : (s.move i call phase flights).WaitsAt j c := by
  obtain ⟨other, hj, hcell, hw⟩ := h
  exact ⟨other, by rw [System.move, List.getElem?_set_ne (Ne.symm hne)]; exact hj, hcell, hw⟩

/-- A call that moves is not one that waits at another cell, or that waits no
longer. -/
theorem System.WaitsAt.ne {i j c : Nat} {call : Call K T E} (h : s.WaitsAt j c) (hi : s.calls[i]? = some call)
    (hother : call.cell ≠ c ∨ call.phase ≠ .waiting) : j ≠ i := by
  rintro rfl
  obtain ⟨other, hj, hcell, hw⟩ := h
  cases hi.symm.trans hj
  exact hother.elim (fun hne => hne hcell) fun hne => hne hw

structure Queued.Inv (s : Queued K T E) : Prop where
  system : s.system.Inv
  queues : ∀ c, Queue.Inv s.system c (s.queues c)

/-- A step at one cell: its own queue is to be looked at, and the others keep
what they had. -/
theorem Queued.Inv.next {s : Queued K T E} (h : s.Inv) {c₀ : Nat} {system : System K T E} {q : Queue}
    (hsystem : system.Inv) (hq : Queue.Inv system c₀ q)
    (hwaits : ∀ c i, c ≠ c₀ → s.system.WaitsAt i c → system.WaitsAt i c)
    (hcells : ∀ c, c ≠ c₀ → SameCell s.system.flights system.flights c) : (s.next c₀ system q).Inv := by
  refine ⟨hsystem, fun c => ?_⟩
  by_cases hc : c = c₀
  · subst hc
    simpa [Queued.next] using hq
  · simpa [Queued.next, hc] using (h.queues c).frame (fun i => hwaits c i hc) (hcells c hc)

theorem Queued.inv_start : (Queued.start : Queued K T E).Inv := ⟨System.inv_start, fun _ => Queue.inv_empty _ _⟩

/-- A poll that finds no permit is queued behind a call that has it. -/
theorem Queued.Inv.join [DecidableEq K] {s : Queued K T E} (h : s.Inv) (hi : s.system.calls[i]? = some call)
    (hw : call.phase = .waiting)
    (hq : (s.queues call.cell).granted.isSome = true ∨ SingleFlight.step s.system (.poll i) = none) :
    Queue.Inv s.system call.cell ((s.queues call.cell).join i) := by
  obtain ⟨hwaiting, hgranted, hattended⟩ := h.queues call.cell
  have hheld : (s.queues call.cell).granted.isSome = true ∨
      ∃ cell, s.system.flights.cells call.cell = some cell ∧ cell.busy = true := by
    refine hq.imp_right fun hnone => ?_
    obtain ⟨cell, -, hc, -⟩ := h.system.cell hi (live_of_phase (.inl hw))
    refine ⟨cell, hc, ?_⟩
    by_contra hb
    cases hv : cell.value with
    | some value => simp [SingleFlight.step, hi, hw, poll, hc, hv] at hnone
    | none => simp [SingleFlight.step, hi, hw, poll, hc, hv, hb] at hnone
  unfold Queue.join
  split
  · exact ⟨hwaiting, hgranted, hattended⟩
  · refine ⟨fun j hj => ?_, hgranted, fun _ => hheld⟩
    rcases List.mem_append.1 hj with hj | hj
    · exact hwaiting j hj
    · rw [List.mem_singleton.1 hj]
      exact ⟨call, hi, rfl, hw⟩

/-- The call that goes on found the permit free or handed to it, or a value,
and then nobody is queued. -/
theorem Queued.Inv.serve [DecidableEq K] {s : Queued K T E} (h : s.Inv) {phase : Phase T E} {flights : SingleFlight K T}
    (hi : s.system.calls[i]? = some call) (hm : Moves s.system.flights i call (.poll i) phase flights) :
    Queue.Inv (s.system.move i call phase flights) call.cell ((s.queues call.cell).serve i) := by
  obtain ⟨hwaiting, hgranted, hattended⟩ := h.queues call.cell
  cases hm with
  | @share cell value hw hc hv =>
    have hempty : (s.queues call.cell).waiting = [] := by
      by_contra hne
      rcases hattended hne with hsome | ⟨cell', hc', hb⟩
      · obtain ⟨j, hj⟩ := Option.isSome_iff_exists.1 hsome
        obtain ⟨-, cell', hc', -, hv'⟩ := hgranted j hj
        cases hc.symm.trans hc'
        simp [hv] at hv'
      · cases hc.symm.trans hc'
        obtain ⟨cell', -, hc', hmap⟩ := h.system.cell hi (live_of_phase (.inl hw))
        cases hc.symm.trans hc'
        cases hv.symm.trans (hmap.empty hb)
    rw [Queue.serve, hempty]
    exact Queue.inv_empty _ _
  | @run cell hw hc hv hb =>
    refine ⟨fun j hj => ?_, fun j hj => (nomatch hj), fun _ => .inr ?_⟩
    · obtain ⟨hj, hne⟩ := List.mem_filter.1 hj
      exact (hwaiting j hj).move (by simpa using hne)
    · exact ⟨{ cell with busy := true }, by simp [System.move, modify, hc], rfl⟩

/-- A waiting call is dropped: the permit goes on if it was handed to it. -/
theorem Queue.Inv.quit {c : Nat} {q : Queue} (h : Queue.Inv s c q) (hwaits : ∀ j, j ≠ i → s.WaitsAt j c → s'.WaitsAt j c)
    (hcell : s'.flights = s.flights) : Queue.Inv s' c (q.quit i) := by
  have hwaiting : ∀ j ∈ q.waiting.filter (· ≠ i), s'.WaitsAt j c := by
    intro j hj
    obtain ⟨hj, hne⟩ := List.mem_filter.1 hj
    exact hwaits j (by simpa using hne) (h.waiting j hj)
  unfold Queue.quit
  dsimp only
  split
  · rename_i hq
    obtain ⟨-, cell, hc, hb, hv⟩ := h.granted i hq
    exact Queue.inv_release hwaiting ⟨cell, by rw [hcell]; exact hc, hb, hv⟩
  · rename_i hq
    refine ⟨hwaiting, fun j hj => ?_, fun hne => ?_⟩
    · obtain ⟨hw, cell, hc, hrest⟩ := h.granted j hj
      have hji : j ≠ i := by
        rintro rfl
        exact hq hj
      exact ⟨hwaits j hji hw, cell, by rw [hcell]; exact hc, hrest⟩
    · refine (h.attended fun hnil => ?_).imp_right fun hbusy => by rwa [hcell]
      rw [hnil] at hne
      exact hne rfl

/-- The permit of a running call is given back with the cell empty. -/
theorem Queued.Inv.release {s : Queued K T E} (h : s.Inv) (hsystem : s.system.Inv) {phase : Phase T E}
    (hi : s.system.calls[i]? = some call) (hr : call.phase = .running) :
    Queue.Inv (s.system.move i call phase (s.system.flights.settle call.cell none)) call.cell
      (s.queues call.cell).release := by
  obtain ⟨cell, -, hc, -⟩ := hsystem.cell hi (live_of_phase (.inr hr))
  refine Queue.inv_release (fun j hj => ?_) ⟨{ cell with value := none, busy := false }, ?_, rfl, rfl⟩
  · have hwaits := (h.queues call.cell).waiting j hj
    exact hwaits.move (hwaits.ne hi (.inr (by rw [hr]; exact nofun)))
  · simp [System.move, settle, modify, hc]

theorem Queued.Inv.step [DecidableEq K] {s s' : Queued K T E} (h : s.Inv) {a : Action K T E}
    (hqueued : s.step a = some s') : s'.Inv := by
  -- a call that moves leaves the other cells, and those who wait there
  have hmoved : ∀ {i call phase flights}, s.system.calls[i]? = some call → ∀ c j, c ≠ call.cell →
      s.system.WaitsAt j c → (s.system.move i call phase flights).WaitsAt j c :=
    fun hi c j hc hwaits => hwaits.move (hwaits.ne hi (.inl (Ne.symm hc)))
  have hmodified : ∀ (c₀ : Nat) (f : FlightCell K T → FlightCell K T) c, c ≠ c₀ →
      SameCell s.system.flights (s.system.flights.modify c₀ f) c :=
    fun c₀ f c hc => .modify s.system.flights c₀ c fun heq => absurd heq hc
  cases Queued.steps_of_step hqueued with
  | @enter key system hstep =>
    refine ⟨h.system.step hstep, fun c => ?_⟩
    cases hstep
    refine (h.queues c).frame (fun i hwaits => ?_) (sameCell_enter h.system key c)
    obtain ⟨call, hi, hcell, hw⟩ := hwaits
    exact ⟨call, by rw [List.getElem?_append_left (List.getElem?_eq_some_iff.1 hi).1]; exact hi, hcell, hw⟩
  | @leave i system hstep =>
    refine ⟨h.system.step hstep, fun c => ?_⟩
    rcases step_cases hstep with ⟨key, ha, -⟩ | ⟨i, call, phase, flights, hi, hm, rfl⟩
    · cases ha
    · cases hm with
      | leave hl =>
        exact (h.queues c).frame (fun j hwaits => hwaits.move (hwaits.ne hi (.inr (by rw [hl]; exact nofun))))
          (sameCell_leave _ call.key call.cell c)
  | @serve i call system hi hq hstep =>
    have hsystem := h.system.step hstep
    rcases step_cases hstep with ⟨key, ha, -⟩ | ⟨i', call', phase, flights, hi', hm, rfl⟩
    · cases ha
    · obtain rfl : i' = i := by cases hm <;> rfl
      cases hi.symm.trans hi'
      refine h.next hsystem (h.serve hi hm) (hmoved hi) fun c hc => ?_
      cases hm with
      | share => exact .refl _ c
      | run => exact hmodified _ _ c hc
  | @join i call hi hw hq => exact h.next h.system (h.join hi hw hq) (fun _ _ _ hwaits => hwaits) fun c _ => .refl _ c
  | @finish i call value system hi hstep =>
    have hsystem := h.system.step hstep
    rcases step_cases hstep with ⟨key, ha, -⟩ | ⟨i', call', phase, flights, hi', hm, rfl⟩
    · cases ha
    · cases hm with
      | finish _ hr =>
        cases hi.symm.trans hi'
        exact h.next hsystem (Queue.inv_empty ..) (hmoved hi) (hmodified _ _)
  | @fail i call error system hi hstep =>
    have hsystem := h.system.step hstep
    rcases step_cases hstep with ⟨key, ha, -⟩ | ⟨i', call', phase, flights, hi', hm, rfl⟩
    · cases ha
    · cases hm with
      | fail _ hr =>
        cases hi.symm.trans hi'
        exact h.next hsystem (h.release h.system hi hr) (hmoved hi) (hmodified _ _)
  | @cancel i call system hi hstep =>
    have hsystem := h.system.step hstep
    rcases step_cases hstep with ⟨key, ha, -⟩ | ⟨i', call', phase, flights, hi', hm, rfl⟩
    · cases ha
    · cases hm with
      | drop hw =>
        cases hi.symm.trans hi'
        rw [hw]
        refine h.next hsystem ?_ (hmoved hi) fun c _ => .refl _ c
        exact (h.queues call.cell).quit (fun j hne hwaits => hwaits.move hne) rfl
      | abort hr =>
        cases hi.symm.trans hi'
        rw [hr]
        exact h.next hsystem (h.release h.system hi hr) (hmoved hi) (hmodified _ _)

theorem Queued.Runs.inv [DecidableEq K] {s s' : Queued K T E} {acts : List (Action K T E)} (hrun : Queued.Runs s acts s')
    (h : s.Inv) : s'.Inv := by
  induction hrun with
  | nil => exact h
  | snoc _ hstep ih => exact ih.step hstep

/-- Calls that wait are attended to: one of their key runs, or one that waits
goes on when it is polled. -/
def Queued.Attended [DecidableEq K] (s : Queued K T E) : Prop :=
  ∀ (i : Nat) (call : Call K T E), s.system.calls[i]? = some call → call.phase = .waiting →
    (∃ call' ∈ s.system.calls, call'.key = call.key ∧ call'.phase.isRunning = true) ∨
    ∃ (j : Nat) (call' : Call K T E) (s' : Queued K T E), s.system.calls[j]? = some call' ∧ call'.key = call.key ∧
      call'.phase = .waiting ∧
      s.step (.poll j) = some s' ∧ SingleFlight.step s.system (.poll j) = some s'.system

/-- A waiting call whose cell is free, or has a value, goes on. -/
theorem Queued.goes_on [DecidableEq K] {s : Queued K T E} {cell : FlightCell K T} (hi : s.system.calls[i]? = some call)
    (hw : call.phase = .waiting) (hc : s.system.flights.cells call.cell = some cell) (hb : cell.busy = false)
    (hq : (s.queues call.cell).granted = none ∨ (s.queues call.cell).granted = some i) :
    ∃ s', s.step (.poll i) = some s' ∧ SingleFlight.step s.system (.poll i) = some s'.system := by
  obtain ⟨system, hstep⟩ : ∃ system, SingleFlight.step s.system (.poll i) = some system := by
    cases hv : cell.value with
    | some value => exact ⟨_, by simp only [SingleFlight.step, hi, hw, poll, hc, hv]; rfl⟩
    | none => exact ⟨_, by simp only [SingleFlight.step, hi, hw, poll, hc, hv, hb]; rfl⟩
  exact ⟨_, by simp only [Queued.step, hi, hw, hstep, if_pos hq]; rfl, hstep⟩

theorem Queued.Inv.attended [DecidableEq K] {s : Queued K T E} (h : s.Inv) : s.Attended := by
  intro i call hi hw
  obtain ⟨cell, hheld, hc, -⟩ := h.system.cell hi (live_of_phase (.inl hw))
  by_cases hb : cell.busy = true
  · exact .inl ((h.system.runs_iff hheld hc).1 hb)
  · rw [Bool.not_eq_true] at hb
    right
    cases hq : (s.queues call.cell).granted with
    | none =>
      obtain ⟨s', hstep⟩ := Queued.goes_on hi hw hc hb (.inl hq)
      exact ⟨i, call, s', hi, rfl, hw, hstep⟩
    | some j =>
      obtain ⟨⟨call', hj, hcell, hw'⟩, -⟩ := (h.queues call.cell).granted j hq
      rw [← hcell] at hc hq
      obtain ⟨s', hstep⟩ := Queued.goes_on hj hw' hc hb (.inr hq)
      have hheld' := h.system.held call' (List.mem_of_getElem? hj) (live_of_phase (.inl hw'))
      rw [hcell] at hheld'
      exact ⟨j, call', s', hj, h.system.key_unique hheld' hheld, hw', hstep⟩

/-- However calls, failures and drops are interleaved: one run at a time for
a key and none after a success, no entry left behind, and no calls left
waiting for nothing. -/
theorem singleFlight_exclusive [DecidableEq K] {s : Queued K T E} {acts : List (Action K T E)}
    (hrun : Queued.Runs .start acts s) : Coalesced s.system ∧ s.Attended := by
  obtain ⟨acts', -, hrefined⟩ := hrun.refines
  exact ⟨(hrefined.inv System.inv_start).coalesced, (hrun.inv Queued.inv_start).attended⟩

theorem queued_runs_steps [DecidableEq K] : ∀ {acts before : List (Action K T E)} {s₀ s s' : Queued K T E},
    Queued.Runs s₀ before s → s.steps acts = some s' → Queued.Runs s₀ (before ++ acts) s'
  | [], before, _, _, _, h, hs => by
    cases hs
    rwa [List.append_nil]
  | a :: acts, before, _, _, _, h, hs => by
    obtain ⟨s₁, hstep, hs⟩ := Option.bind_eq_some_iff.1 hs
    have hrun := queued_runs_steps (h.snoc hstep) hs
    rwa [List.append_assoc, List.singleton_append] at hrun

/-- Four calls of a key. The first fails while the second and the third are
queued, which gives the second the permit: the fourth, though it is polled
first, joins the queue. The second is dropped before it is polled, so the
third runs, and the fourth takes its value. -/
def handedOn : List (Action Nat Nat String) :=
  [.enter 7, .enter 7, .enter 7, .enter 7, .poll 0, .poll 1, .poll 2, .fail 0 "oops", .poll 3, .cancel 1, .poll 3,
    .poll 2, .leave 0, .finish 2 42, .poll 3]

theorem singleFlight_exclusive_handedOn : ∃ s : Queued Nat Nat String, Queued.start.steps handedOn = some s ∧
    s.system.calls.map (fun call => call.phase.result.map Except.toOption) =
      [some none, none, some (some 42), some (some 42)] ∧ Coalesced s.system ∧ s.Attended := by
  obtain ⟨s, hs, hcalls⟩ : ∃ s : Queued Nat Nat String, Queued.start.steps handedOn = some s ∧
      s.system.calls.map (fun call => call.phase.result.map Except.toOption) =
        [some none, none, some (some 42), some (some 42)] := ⟨_, rfl, rfl⟩
  exact ⟨s, hs, hcalls, singleFlight_exclusive (queued_runs_steps .nil hs)⟩

/-! ## Fresh values -/

/-- A value made by a call of `key` that came in as the `n`-th or later. -/
def MadeSince (key : K) (n : Nat) (acts : List (Action K T E)) (s : System K T E) (value : T) : Prop :=
  ∃ j call, n ≤ j ∧ s.calls[j]? = some call ∧ call.key = key ∧ Action.finish j value ∈ acts

/-- A call keeps its place, its key and its cell. -/
theorem step_keeps [DecidableEq K] {a : Action K T E} (hstep : step s a = some s') (hi : s.calls[i]? = some call) :
    ∃ call', s'.calls[i]? = some call' ∧ call'.key = call.key ∧ call'.cell = call.cell := by
  have hlt := (List.getElem?_eq_some_iff.1 hi).1
  rcases step_cases hstep with ⟨key, rfl, rfl⟩ | ⟨j, other, phase, flights, hj, hm, rfl⟩
  · exact ⟨call, by rw [List.getElem?_append_left hlt]; exact hi, rfl, rfl⟩
  · by_cases hij : j = i
    · subst hij
      cases hi.symm.trans hj
      exact ⟨{ call with phase }, List.getElem?_set_self hlt, rfl, rfl⟩
    · exact ⟨call, by rw [System.move, List.getElem?_set_ne hij]; exact hi, rfl, rfl⟩

theorem MadeSince.step [DecidableEq K] {key : K} {n : Nat} {acts : List (Action K T E)} {value : T}
    (h : MadeSince key n acts s value) {a : Action K T E} (hstep : step s a = some s') :
    MadeSince key n (acts ++ [a]) s' value := by
  obtain ⟨j, call, hn, hj, hkey, hmem⟩ := h
  obtain ⟨call', hj', hkey', -⟩ := step_keeps hstep hj
  exact ⟨j, call', hn, hj', hkey'.trans hkey, List.mem_append_left _ hmem⟩

theorem modify_cell {flights : SingleFlight K T} {c₀ c : Nat} {f : FlightCell K T → FlightCell K T}
    {cell' : FlightCell K T} (h : (flights.modify c₀ f).cells c = some cell') :
    ∃ cell, flights.cells c = some cell ∧ (cell' = cell ∨ c = c₀ ∧ cell' = f cell) := by
  by_cases hc : c = c₀
  · subst hc
    obtain ⟨cell, hcell, rfl⟩ : ∃ cell, flights.cells c = some cell ∧ f cell = cell' := by simpa [modify] using h
    exact ⟨cell, hcell, .inr ⟨rfl, rfl⟩⟩
  · exact ⟨cell', by simpa [modify, hc] using h, .inl rfl⟩

/-- A guard let go of changes no value, and adds no key. -/
theorem leave_cell [DecidableEq K] {flights : SingleFlight K T} {key₀ key : K} {c₀ c : Nat} {cell' : FlightCell K T}
    (hk : (flights.leave key₀ c₀).inFlight key = some c) (hc : (flights.leave key₀ c₀).cells c = some cell') :
    flights.inFlight key = some c ∧ ∃ cell, flights.cells c = some cell ∧ cell'.value = cell.value := by
  have hone : ∀ {cell' : FlightCell K T},
      (flights.modify c₀ fun cell => { cell with strong := cell.strong - 1 }).cells c = some cell' →
      ∃ cell, flights.cells c = some cell ∧ cell'.value = cell.value := by
    intro cell' h
    obtain ⟨cell, hcell, rfl | ⟨-, rfl⟩⟩ := modify_cell h
    · exact ⟨cell', hcell, rfl⟩
    · exact ⟨cell, hcell, rfl⟩
  unfold SingleFlight.leave at hk hc
  dsimp only at hk hc
  split at hk
  · rename_i hnone
    simp only [hnone] at hc
    exact ⟨hk, hone hc⟩
  · rename_i c' hsome
    simp only [hsome] at hc
    split at hk
    · rename_i hlast
      rw [if_pos hlast] at hc
      have hne : key ≠ key₀ := by
        rintro rfl
        simp at hk
      refine ⟨by simpa [hne, modify] using hk, ?_⟩
      obtain ⟨cell, hcell, rfl | ⟨-, rfl⟩⟩ := modify_cell hc
      · exact hone hcell
      · obtain ⟨cell₀, hcell₀, hv⟩ := hone hcell
        exact ⟨cell₀, hcell₀, hv⟩
    · rename_i hlast
      rw [if_neg hlast] at hc
      exact ⟨hk, hone hc⟩

/-- What a step leaves in a cell of the map: what was there, or what its own
call put there. -/
theorem Moves.cell [DecidableEq K] {flights flights' : SingleFlight K T} {a : Action K T E} {phase : Phase T E}
    (h : Moves flights i call a phase flights') {key : K} {c : Nat} {cell' : FlightCell K T}
    (hk : flights'.inFlight key = some c) (hc : flights'.cells c = some cell') :
    flights.inFlight key = some c ∧ ∃ cell, flights.cells c = some cell ∧
      (cell'.value = cell.value ∨ cell'.value = none ∨
        c = call.cell ∧ ∃ value, a = .finish i value ∧ cell'.value = some value ∧ call.phase = .running) := by
  cases h with
  | share => exact ⟨hk, cell', hc, .inl rfl⟩
  | drop => exact ⟨hk, cell', hc, .inl rfl⟩
  | run =>
    obtain ⟨cell, hcell, rfl | ⟨-, rfl⟩⟩ := modify_cell hc
    · exact ⟨hk, cell', hcell, .inl rfl⟩
    · exact ⟨hk, cell, hcell, .inl rfl⟩
  | finish value hr =>
    obtain ⟨cell, hcell, rfl | ⟨hcc, rfl⟩⟩ := modify_cell hc
    · exact ⟨hk, cell', hcell, .inl rfl⟩
    · exact ⟨hk, cell, hcell, .inr (.inr ⟨hcc, value, rfl, rfl, hr⟩)⟩
  | fail error hr =>
    obtain ⟨cell, hcell, rfl | ⟨-, rfl⟩⟩ := modify_cell hc
    · exact ⟨hk, cell', hcell, .inl rfl⟩
    · exact ⟨hk, cell, hcell, .inr (.inl rfl)⟩
  | abort hr =>
    obtain ⟨cell, hcell, rfl | ⟨-, rfl⟩⟩ := modify_cell hc
    · exact ⟨hk, cell', hcell, .inl rfl⟩
    · exact ⟨hk, cell, hcell, .inr (.inl rfl)⟩
  | leave hl =>
    obtain ⟨hk, cell, hcell, hv⟩ := leave_cell hk hc
    exact ⟨hk, cell, hcell, .inl hv⟩

/-- After some actions from a state where no call of `key` is in flight. -/
structure Fresh (key : K) (n : Nat) (acts : List (Action K T E)) (s : System K T E) : Prop where
  length : n ≤ s.calls.length
  older : ∀ i call, i < n → s.calls[i]? = some call → call.key = key → call.phase.live = false
  values : ∀ c cell value, s.flights.inFlight key = some c → s.flights.cells c = some cell →
    cell.value = some value → MadeSince key n acts s value
  results : ∀ i call value, n ≤ i → s.calls[i]? = some call → call.key = key →
    call.phase.result = some (.ok value) → MadeSince key n acts s value

theorem Fresh.step [DecidableEq K] {key : K} {n : Nat} {acts : List (Action K T E)} (h : Fresh key n acts s)
    (hinv : s.Inv) {a : Action K T E} (hstep : step s a = some s') : Fresh key n (acts ++ [a]) s' := by
  rcases step_cases hstep with ⟨key', rfl, rfl⟩ | ⟨i, call, phase, flights, hi, hm, rfl⟩
  · refine ⟨?_, fun j other hj hget hkey => ?_, fun c cell value hk hc hv => ?_, fun j other value hn hget hkey hres => ?_⟩
    · have := h.length
      simp only [List.length_append, List.length_singleton]
      omega
    · have hlt : j < s.calls.length := Nat.lt_of_lt_of_le hj h.length
      rw [List.getElem?_append_left hlt] at hget
      exact h.older j other hj hget hkey
    · suffices hold : ∃ cell', s.flights.inFlight key = some c ∧ s.flights.cells c = some cell' ∧
          cell'.value = some value by
        obtain ⟨cell', hk', hc', hv'⟩ := hold
        exact (h.values c cell' value hk' hc' hv').step hstep
      unfold SingleFlight.enter at hk hc
      split at hk
      · rename_i c₀ hsome
        simp only [hsome] at hc
        obtain ⟨cell', hc', rfl | ⟨-, rfl⟩⟩ := modify_cell hc
        · exact ⟨cell, hk, hc', hv⟩
        · exact ⟨cell', hk, hc', hv⟩
      · rename_i hnone
        simp only [hnone] at hc
        by_cases hnew : c = s.flights.next
        · subst hnew
          obtain rfl : (⟨key', none, false, 2⟩ : FlightCell K T) = cell := by simpa using hc
          cases hv
        · have hne : key ≠ key' := by
            rintro rfl
            exact hnew (by simpa using hk.symm)
          exact ⟨cell, by simpa [hne] using hk, by simpa [hnew] using hc, hv⟩
    · by_cases hlt : j < s.calls.length
      · rw [List.getElem?_append_left hlt] at hget
        exact (h.results j other value hn hget hkey hres).step hstep
      · rw [List.getElem?_append_right (by omega)] at hget
        rw [List.mem_singleton.1 (List.mem_of_getElem? hget)] at hres
        cases hres
  · have hlt := (List.getElem?_eq_some_iff.1 hi).1
    -- a call of the key that moves is a new one: it is in flight
    have hnew : call.key = key → call.phase.live = true → n ≤ i := by
      intro hkey hlive
      by_contra hlt'
      rw [h.older i call (by omega) hi hkey] at hlive
      cases hlive
    have hmoved : ∀ j other, (s.calls.set i { call with phase })[j]? = some other →
        j = i ∧ other = { call with phase } ∨ j ≠ i ∧ s.calls[j]? = some other := by
      intro j other hget
      by_cases hij : i = j
      · subst hij
        rw [List.getElem?_set_self hlt] at hget
        exact .inl ⟨rfl, (Option.some.inj hget).symm⟩
      · rw [List.getElem?_set_ne hij] at hget
        exact .inr ⟨Ne.symm hij, hget⟩
    refine ⟨by simpa [System.move] using h.length, fun j other hj hget hkey => ?_, fun c cell value hk hc hv => ?_,
      fun j other value hn hget hkey hres => ?_⟩
    · rcases hmoved j other hget with ⟨rfl, rfl⟩ | ⟨-, hget⟩
      · have hdead := h.older j call hj hi hkey
        cases hm <;> simp_all [Phase.live]
      · exact h.older j other hj hget hkey
    · obtain ⟨hk', cell', hc', hval⟩ := hm.cell hk hc
      rcases hval with hval | hval | ⟨rfl, value', rfl, hval, hr⟩
      · exact (h.values c cell' value hk' hc' (by rw [← hval]; exact hv)).step hstep
      · rw [hval] at hv
        cases hv
      · obtain rfl : value' = value := Option.some.inj (hval.symm.trans hv)
        have hlive := live_of_phase (.inr hr)
        have hkey := hinv.key_unique (hinv.held call (List.mem_of_getElem? hi) hlive) hk'
        exact ⟨i, { call with phase }, hnew hkey hlive, List.getElem?_set_self hlt, hkey, by simp⟩
    · rcases hmoved j other hget with ⟨rfl, rfl⟩ | ⟨-, hget⟩
      · cases hm with
        | @share cell value' hw hc hv =>
          cases hres
          have hlive := live_of_phase (.inl hw)
          have hheld := hinv.held call (List.mem_of_getElem? hi) hlive
          rw [show call.key = key from hkey] at hheld
          exact (h.values _ cell value hheld hc hv).step hstep
        | run => cases hres
        | finish value' hr =>
          cases hres
          exact ⟨j, _, hn, List.getElem?_set_self hlt, hkey, by simp⟩
        | fail error hr => cases hres
        | drop hw => cases hres
        | abort hr => cases hres
        | @leave result hl =>
          exact (h.results j call value hn hi hkey (by rw [hl]; exact hres)).step hstep
      · exact (h.results j other value hn hget hkey hres).step hstep

theorem Runs.fresh [DecidableEq K] {key : K} {acts : List (Action K T E)} (hrun : Runs s acts s') (hinv : s.Inv)
    (hquiet : ∀ call ∈ s.calls, call.key = key → call.phase.live = false) : Fresh key s.calls.length acts s' := by
  induction hrun with
  | nil =>
    refine ⟨Nat.le_refl _, fun i call _ hi hkey => hquiet call (List.mem_of_getElem? hi) hkey, fun c cell value hk => ?_,
      fun i call value hn hi => ?_⟩
    · obtain ⟨call, hmem, hkey, hlive⟩ := (hinv.coalesced.inFlight key).1 (by rw [hk]; rfl)
      rw [hquiet call hmem hkey] at hlive
      cases hlive
    · have := (List.getElem?_eq_some_iff.1 hi).1
      omega
  | snoc hrun hstep ih => exact ih.step (hrun.inv hinv) hstep

/-- From any state reached in which no call of `key` is in flight, whatever
comes after: a value that a later call of `key` returns was made, after that
state, by such a call. -/
theorem singleFlight_fresh [DecidableEq K] {key : K} {acts acts' : List (Action K T E)} (hrun : Runs .start acts s)
    (hquiet : ∀ call ∈ s.calls, call.key = key → call.phase.live = false) (hrun' : Runs s acts' s')
    {value : T} (hi : s'.calls[i]? = some call) (hlater : s.calls.length ≤ i) (hkey : call.key = key)
    (hresult : call.phase.result = some (.ok value)) : MadeSince key s.calls.length acts' s' value :=
  (hrun'.fresh (hrun.inv System.inv_start) hquiet).results i call value hlater hi hkey hresult

theorem singleFlight_fresh_repeated : ∃ s s' : System Nat Nat String,
    Runs .start [.enter 7, .poll 0, .finish 0 1, .leave 0] s ∧
      Runs s [.enter 7, .enter 7, .poll 1, .finish 1 2, .poll 2] s' ∧
      MadeSince 7 s.calls.length [.enter 7, .enter 7, .poll 1, .finish 1 2, .poll 2] s' 2 := by
  obtain ⟨s, hs, hcalls⟩ : ∃ s : System Nat Nat String,
      steps .start [.enter 7, .poll 0, .finish 0 1, .leave 0] = some s ∧
        s.calls = [⟨7, 0, .returned (some (.ok 1))⟩] := ⟨_, rfl, rfl⟩
  obtain ⟨s', hs', hcall⟩ : ∃ s' : System Nat Nat String,
      steps s [.enter 7, .enter 7, .poll 1, .finish 1 2, .poll 2] = some s' ∧
        s'.calls[2]? = some ⟨7, 1, .leaving (some (.ok 2))⟩ := by
    cases hs
    exact ⟨_, rfl, rfl⟩
  have hrun := runs_steps .nil hs
  have hrun' := runs_steps .nil hs'
  refine ⟨s, s', hrun, hrun', singleFlight_fresh hrun ?_ hrun' hcall ?_ rfl rfl⟩
  · intro call hmem _
    rw [hcalls, List.mem_singleton] at hmem
    rw [hmem]
    rfl
  · rw [hcalls]
    decide

end SingleFlight

end Miscreant
