import YominsAgent.Go.Map
import YominsAgent.Go.Strings
import YominsAgent.Lib.Run

/- `Registry.CollectAll`: passes over the collectors, each call in a goroutine of its own.

   A call may outlive the pass that started it. The map `busy` keeps its collector from being
   started again, so there is never more than one call of a collector (`registry_isolation`). A pass
   returns the points of its own calls that returned without error and were not given up, and an
   error for every other collector. The `select` that waits for a call may give it up although it
   has returned, once its context is done as well (`given_up_after_return`).

   Correspondence (Go ↔ Lean):
     `CollectAll`  ↔ `Label.begin`, then the steps of its pass
     the loop body ↔ `PassLabel.next`
     the goroutine of a call, its watcher and its context
                   ↔ `CallLabel`
     `wg.Wait()` and the last loop ↔ `PassLabel.gather`, `assemble`

   Passes may overlap. What a collector measures is a parameter, as is how the timeout is printed. -/
namespace YominsAgent.Collector
open Go Lib List Option

variable {π : Type}

/-- The collectors by name, and the timeout as `%s` prints it. -/
structure Registry where
  names : List Str
  nodup : names.Nodup
  timeout : Str

structure Result (π : Type) where
  pts : List π
  err : Option Str
  deriving DecidableEq

/-- The goroutine that calls `Collect`. -/
inductive Worker (π : Type) where
  | collecting
  | returned (r : Result π)
  | sent (r : Result π)
  | finished (r : Result π)
  deriving DecidableEq

/-- The goroutine that waits for the call. -/
inductive Watcher (π : Type) where
  | waiting
  | received (r : Result π)
  | gaveUp
  deriving DecidableEq

structure Call (π : Type) where
  worker : Worker π := .collecting
  /-- The channel `done`, of capacity one. -/
  done : Option (Result π) := none
  /-- Whether `cctx` is done. -/
  expired : Bool := false
  watcher : Watcher π := .waiting
  deriving DecidableEq

/-- A pass: a call, or none, for each collector the loop has been at, and `results`. -/
structure Pass (π : Type) where
  calls : List (Option (Call π)) := []
  results : List (Result π)
  ended : Option (List π × Map Str Str) := none

structure State (π : Type) where
  busy : List Str := []
  passes : List (Pass π) := []

inductive CallLabel (π : Type) where
  | collected (r : Result π)
  | send
  | finish
  | expire
  | receive
  | giveUp

inductive PassLabel (π : Type) where
  | next
  | call (i : Nat) (a : CallLabel π)
  | gather

inductive Label (π : Type) where
  | begin
  | pass (p : Nat) (a : PassLabel π)

def stillRunning : Str := "previous collection still running".toList
def timedOut (reg : Registry) : Str := "timed out after ".toList ++ reg.timeout

def start (busy : List Str) (name : Str) : Option (List Str) :=
  if name ∈ busy then none else some (name :: busy)

def finish (busy : List Str) (name : Str) : List Str := busy.filter (· ≠ name)

def Call.step (c : Call π) : CallLabel π → Option (Call π)
  | .collected r =>
    match c.worker with
    | .collecting => some { c with worker := .returned r }
    | _ => none
  | .send =>
    match c.worker, c.done with
    | .returned r, none => some { c with worker := .sent r, done := some r }
    | _, _ => none
  | .finish =>
    match c.worker with
    | .sent r => some { c with worker := .finished r }
    | _ => none
  -- the timeout, or the context of the pass
  | .expire => some { c with expired := true }
  -- the deferred `cancel` ends the context
  | .receive =>
    match c.watcher, c.done with
    | .waiting, some r => some { c with done := none, watcher := .received r, expired := true }
    | _, _ => none
  | .giveUp =>
    match c.watcher, c.expired with
    | .waiting, true => some { c with watcher := .gaveUp }
    | _, _ => none

section
variable (reg : Registry)

def setErr (err : Str) (r : Result π) : Result π := { r with err := some err }

/-- What the step of a call writes to the results of its pass. -/
def writeResult (c : Call π) (i : Nat) (results : List (Result π)) :
    CallLabel π → List (Result π)
  | .receive => match c.done with
    | some r => results.set i r
    | none => results
  | .giveUp => results.modify i (setErr (timedOut reg))
  | _ => results

def addResult (out : List π × Map Str Str) (x : Str × Result π) : List π × Map Str Str :=
  match x.2.err with
  | some e => (out.1, out.2.insert x.1 e)
  | none => (out.1 ++ x.2.pts, out.2)

/-- The last loop of `CollectAll`. -/
def assemble (results : List (Str × Result π)) : List π × Map Str Str :=
  results.foldl addResult ([], ∅)

def Call.settled (c : Call π) : Bool :=
  match c.watcher with
  | .waiting => false
  | _ => true

def Pass.step (busy : List Str) (P : Pass π) : PassLabel π → Option (List Str × Pass π)
  | .next =>
    match reg.names[P.calls.length]? with
    | none => none
    | some name =>
      match start busy name with
      | none => some (busy, { P with
          calls := P.calls ++ [none]
          results := P.results.modify P.calls.length (setErr stillRunning) })
      | some busy => some (busy, { P with calls := P.calls ++ [some {}] })
  | .call i a =>
    match P.calls[i]?, reg.names[i]? with
    | some (some c), some name =>
      (c.step a).map fun c' =>
        ((match a with
          | .finish => finish busy name
          | _ => busy),
         { P with calls := P.calls.set i (some c'), results := writeResult reg c i P.results a })
    | _, _ => none
  | .gather =>
    if P.ended.isNone && P.calls.length == reg.names.length &&
        P.calls.all (fun o => o.all Call.settled) then
      some (busy, { P with ended := some (assemble (reg.names.zip P.results)) })
    else none

def step (s : State π) : Label π → Option (State π)
  | .begin => some { s with
      passes := s.passes ++ [{ results := List.replicate reg.names.length ⟨[], none⟩ }] }
  | .pass p a =>
    match s.passes[p]? with
    | none => none
    | some P => (P.step reg s.busy a).map fun next => ⟨next.1, s.passes.set p next.2⟩

end

/-! ## What a call delivers -/

def Worker.result? : Worker π → Option (Result π)
  | .collecting => none
  | .returned r | .sent r | .finished r => some r

def Result.ok (r : Result π) : Option (List π) :=
  match r.err with
  | none => some r.pts
  | some _ => none

/-- The points of a call that returned without error and was not given up. -/
def Call.delivers (c : Call π) : Option (List π) :=
  match c.watcher with
  | .gaveUp => none
  | _ => c.worker.result?.bind Result.ok

/-- What a pass has of a collector, from what has become of its call. -/
def slot (reg : Registry) : Option (Option (Call π)) → Result π
  | none => ⟨[], none⟩
  | some none => ⟨[], some stillRunning⟩
  | some (some c) => match c.watcher with
    | .waiting => ⟨[], none⟩
    | .received r => r
    | .gaveUp => ⟨[], some (timedOut reg)⟩

/-- The channel holds, and the watcher has, only what `Collect` returned. -/
structure Call.Ok (c : Call π) : Prop where
  done : ∀ r, c.done = some r → c.worker.result? = some r
  received : ∀ r, c.watcher = .received r → c.worker.result? = some r

variable {c c' : Call π} {a : CallLabel π}

theorem Call.Ok.step (h : c.Ok) (hs : c.step a = some c') : c'.Ok := by
  obtain ⟨worker, done, expired, watcher⟩ := c
  obtain ⟨hdone, hrec⟩ := h
  cases a with
  | collected =>
    cases worker <;> simp only [Call.step, some.injEq, reduceCtorEq] at hs
    subst hs
    simp only [Worker.result?, reduceCtorEq] at hdone hrec
    exact ⟨fun r' h => absurd h (hdone r'), fun r' h => absurd h (hrec r')⟩
  | send =>
    cases worker <;> cases done <;>
      simp only [Call.step, some.injEq, reduceCtorEq] at hs
    subst hs
    exact ⟨fun r' h => h, hrec⟩
  | finish =>
    cases worker <;> simp only [Call.step, some.injEq, reduceCtorEq] at hs
    subst hs
    exact ⟨hdone, hrec⟩
  | expire =>
    cases hs
    exact ⟨hdone, hrec⟩
  | receive =>
    cases watcher <;> cases done <;>
      simp only [Call.step, some.injEq, reduceCtorEq] at hs
    subst hs
    exact ⟨nofun, fun r' h => hdone r' (by injection h with h; rw [h])⟩
  | giveUp =>
    cases watcher <;> cases expired <;>
      simp only [Call.step, some.injEq, reduceCtorEq] at hs
    subst hs
    exact ⟨hdone, nofun⟩

/-! ## One pass -/

structure Pass.Ok (reg : Registry) (P : Pass π) : Prop where
  calls : ∀ c, some c ∈ P.calls → c.Ok
  le : P.calls.length ≤ reg.names.length
  length : P.results.length = reg.names.length
  results : ∀ i < reg.names.length, P.results[i]? = some (slot reg P.calls[i]?)
  ended : ∀ out, P.ended = some out → out = assemble (reg.names.zip P.results) ∧
    P.calls.length = reg.names.length ∧ ∀ c, some c ∈ P.calls → c.settled = true

variable {reg : Registry} {i : Nat} {results : List (Result π)} {P P' : Pass π}
  {o : Option (Call π)} {busy busy' : List Str} {s : State π}

theorem length_writeResult (c : Call π) (i : Nat) (results : List (Result π)) (a : CallLabel π) :
    (writeResult reg c i results a).length = results.length := by
  cases a with
  | receive =>
    simp only [writeResult]
    split
    · exact length_set
    · rfl
  | giveUp => exact length_modify ..
  | _ => rfl

/-- What the step of a call writes is what has become of the call. -/
theorem writeResult_slot (hs : c.step a = some c')
    (hi : results[i]? = some (slot reg (some (some c)))) :
    (∀ j ≠ i, (writeResult reg c i results a)[j]? = results[j]?) ∧
    (writeResult reg c i results a)[i]? = some (slot reg (some (some c'))) := by
  obtain ⟨worker, done, expired, watcher⟩ := c
  cases a with
  | collected | finish =>
    cases worker <;> cases hs
    exact ⟨fun j _ => rfl, hi⟩
  | send =>
    cases worker <;> cases done <;> cases hs
    exact ⟨fun j _ => rfl, hi⟩
  | expire =>
    cases hs
    exact ⟨fun j _ => rfl, hi⟩
  | receive =>
    cases watcher <;> cases done <;> cases hs
    have hlt := (List.getElem?_eq_some_iff.mp hi).1
    exact ⟨fun j hj => List.getElem?_set_ne (Ne.symm hj), List.getElem?_set_self hlt⟩
  | giveUp =>
    cases watcher <;> cases expired <;> cases hs
    refine ⟨fun j hj => List.getElem?_modify_ne _ _ (Ne.symm hj), ?_⟩
    rw [writeResult, List.getElem?_modify_eq, hi]
    rfl

/-- A call whose watcher is done has nothing more to write. -/
theorem settled_step (hs : c.step a = some c') (hc : c.settled = true) (reg : Registry) (i : Nat)
    (results : List (Result π)) : c'.settled = true ∧ writeResult reg c i results a = results := by
  obtain ⟨worker, done, expired, watcher⟩ := c
  cases watcher with
  | waiting => cases hc
  | received | gaveUp =>
    cases a <;> cases worker <;> cases done <;> cases hs <;> exact ⟨rfl, rfl⟩

theorem Pass.Ok.add (h : P.Ok reg) (hlt : P.calls.length < reg.names.length)
    (ho : ∀ c, o = some c → c.Ok) (hlen : results.length = P.results.length)
    (hother : ∀ j ≠ P.calls.length, results[j]? = P.results[j]?)
    (hnew : results[P.calls.length]? = some (slot reg (some o))) :
    Pass.Ok reg { P with calls := P.calls ++ [o], results } := by
  refine ⟨fun c hc => ?_, ?_, hlen.trans h.length, fun i hi => ?_, fun out he => ?_⟩
  · rcases mem_snoc.mp hc with hc | hc
    · exact h.calls c hc
    · exact ho c hc.symm
  · rw [length_append]
    exact hlt
  · by_cases hil : i = P.calls.length
    · subst hil
      rw [hnew, getElem?_concat_length]
    · rw [hother i hil, h.results i hi]
      rcases Nat.lt_or_gt_of_ne hil with hl | hl
      · rw [getElem?_append_left hl]
      · rw [getElem?_eq_none (Nat.le_of_lt hl), getElem?_eq_none (by simp; omega)]
  · exact absurd (h.ended out he).2.1 (Nat.ne_of_lt hlt)

theorem Pass.Ok.call (h : P.Ok reg) (hc : P.calls[i]? = some (some c)) (hs : c.step a = some c') :
    Pass.Ok reg { P with
      calls := P.calls.set i (some c'), results := writeResult reg c i P.results a } := by
  obtain ⟨hlt, -⟩ := List.getElem?_eq_some_iff.mp hc
  have hmem : some c ∈ P.calls := List.mem_of_getElem? hc
  have hslot := h.results i (Nat.lt_of_lt_of_le hlt h.le)
  rw [hc] at hslot
  obtain ⟨hother, hown⟩ := writeResult_slot hs hslot
  refine ⟨fun d hd => ?_, ?_, (length_writeResult c i P.results a).trans h.length,
    fun j hj => ?_, fun out he => ?_⟩
  · rcases List.mem_or_eq_of_mem_set hd with hd | hd
    · exact h.calls d hd
    · exact Option.some.inj hd ▸ (h.calls c hmem).step hs
  · rw [List.length_set]
    exact h.le
  · by_cases hji : j = i
    · subst hji
      rw [hown, List.getElem?_set_self hlt]
    · rw [hother j hji, List.getElem?_set_ne (Ne.symm hji)]
      exact h.results j hj
  · obtain ⟨hout, hlen, hsettled⟩ := h.ended out he
    obtain ⟨hc', hsame⟩ := settled_step hs (hsettled c hmem) reg i P.results
    refine ⟨?_, ?_, fun d hd => ?_⟩
    · rw [hsame]
      exact hout
    · rw [List.length_set]
      exact hlen
    · rcases List.mem_or_eq_of_mem_set hd with hd | hd
      · exact hsettled d hd
      · exact Option.some.inj hd ▸ hc'

theorem Pass.Ok.step {a : PassLabel π} (h : P.Ok reg) (hs : P.step reg busy a = some (busy', P')) :
    P'.Ok reg := by
  cases a with
  | next =>
    simp only [Pass.step] at hs
    split at hs
    · cases hs
    · next name hname =>
      have hlt := (List.getElem?_eq_some_iff.mp hname).1
      have hzero := h.results _ hlt
      rw [List.getElem?_eq_none (Nat.le_refl _)] at hzero
      split at hs
      · cases hs
        refine h.add hlt nofun (List.length_modify ..)
          (fun j hj => List.getElem?_modify_ne _ _ (Ne.symm hj)) ?_
        rw [List.getElem?_modify_eq, hzero]
        rfl
      · cases hs
        refine h.add hlt (fun c hc => ?_) rfl (fun j _ => rfl) hzero
        cases hc
        exact ⟨nofun, nofun⟩
  | call =>
    simp only [Pass.step] at hs
    split at hs
    · next c name hc hname =>
      obtain ⟨c', hc', he⟩ := Option.map_eq_some_iff.mp hs
      cases he
      exact h.call hc hc'
    · cases hs
  | gather =>
    obtain ⟨hg, ⟨⟩⟩ := ite_none_right_eq_some.mp hs
    simp only [Bool.and_eq_true, beq_iff_eq, List.all_eq_true] at hg
    refine ⟨h.calls, h.le, h.length, h.results, fun out he => ?_⟩
    cases he
    exact ⟨rfl, hg.1.2, fun c hc => hg.2 _ hc⟩

/-! ## Calls in progress -/

def Call.holds (c : Call π) : Bool :=
  match c.worker with
  | .finished _ => false
  | _ => true

/-- Whether the pass has a call of the collector that still keeps it busy. -/
def Pass.holds (P : Pass π) (i : Nat) : Bool := P.calls[i]?.any fun o => o.any Call.holds

/-- Whether `Collect` is in progress. -/
def Pass.collecting (P : Pass π) (i : Nat) : Prop :=
  ∃ c, P.calls[i]? = some (some c) ∧ c.worker = .collecting

theorem Call.step_holds (hs : c.step a = some c') :
    (a = .finish ∧ c.holds = true ∧ c'.holds = false) ∨ (a ≠ .finish ∧ c'.holds = c.holds) := by
  obtain ⟨worker, done, expired, watcher⟩ := c
  cases a with
  | finish =>
    cases worker <;> cases hs
    exact .inl ⟨rfl, rfl, rfl⟩
  | collected =>
    cases worker <;> cases hs
    exact .inr ⟨nofun, rfl⟩
  | send =>
    cases worker <;> cases done <;> cases hs
    exact .inr ⟨nofun, rfl⟩
  | expire =>
    cases hs
    exact .inr ⟨nofun, rfl⟩
  | receive =>
    cases watcher <;> cases done <;> cases hs
    exact .inr ⟨nofun, rfl⟩
  | giveUp =>
    cases watcher <;> cases expired <;> cases hs
    exact .inr ⟨nofun, rfl⟩

theorem Pass.holds_concat (P : Pass π) (o : Option (Call π)) (results : List (Result π)) (i : Nat) :
    Pass.holds { P with calls := P.calls ++ [o], results } i =
      if i = P.calls.length then o.any Call.holds else P.holds i := by
  rw [Pass.holds]
  split
  · next h => rw [h, getElem?_concat_length, any_some]
  · next h =>
    rcases Nat.lt_or_gt_of_ne h with hl | hl
    · rw [getElem?_append_left hl, Pass.holds]
    · rw [getElem?_eq_none (by simp; omega), Pass.holds, getElem?_eq_none (Nat.le_of_lt hl)]

theorem Pass.holds_set (P : Pass π) {k : Nat} (hc : P.calls[k]? = some (some c))
    (results : List (Result π)) (i : Nat) :
    Pass.holds { P with calls := P.calls.set k (some c'), results } i =
      if i = k then c'.holds else P.holds i := by
  have hlt := (List.getElem?_eq_some_iff.mp hc).1
  rw [Pass.holds]
  split
  · next h => rw [h, List.getElem?_set_self hlt, Option.any_some, Option.any_some]
  · next h => rw [List.getElem?_set_ne (Ne.symm h), Pass.holds]

/-- A step of a pass takes a free collector, gives one back, or does neither. -/
theorem Pass.step_holds {a : PassLabel π} (hs : P.step reg busy a = some (busy', P')) :
    (busy' = busy ∧ ∀ i, P'.holds i = P.holds i) ∨
    (∃ k name, reg.names[k]? = some name ∧ name ∉ busy ∧ busy' = name :: busy ∧
      P'.holds k = true ∧ ∀ i ≠ k, P'.holds i = P.holds i) ∨
    ∃ k name, reg.names[k]? = some name ∧ P.holds k = true ∧ busy' = finish busy name ∧
      P'.holds k = false ∧ ∀ i ≠ k, P'.holds i = P.holds i := by
  cases a with
  | next =>
    simp only [Pass.step] at hs
    split at hs
    · cases hs
    · next name hname =>
      split at hs
      · cases hs
        refine .inl ⟨rfl, fun i => ?_⟩
        rw [Pass.holds_concat]
        split
        · next hi =>
          rw [hi, Pass.holds, getElem?_eq_none (Nat.le_refl _)]
          rfl
        · rfl
      · next hstart =>
        cases hs
        simp only [start, ite_none_left_eq_some] at hstart
        obtain ⟨hfree, hbusy⟩ := hstart
        refine .inr (.inl ⟨_, name, hname, hfree, (some.inj hbusy).symm, ?_, fun i hi => ?_⟩)
        · rw [Pass.holds_concat, if_pos rfl]
          rfl
        · rw [Pass.holds_concat, if_neg hi]
  | call k a =>
    simp only [Pass.step] at hs
    split at hs
    · next c name hc hname =>
      obtain ⟨c', hc', he⟩ := map_eq_some_iff.mp hs
      have hk : P.holds k = c.holds := by
        rw [Pass.holds, hc]
        rfl
      rcases Call.step_holds hc' with ⟨rfl, hheld, hfree⟩ | ⟨hne, hsame⟩
      · cases he
        refine .inr (.inr ⟨k, name, hname, hk.trans hheld, rfl, ?_, fun i hi => ?_⟩)
        · rw [Pass.holds_set P hc, if_pos rfl, hfree]
        · rw [Pass.holds_set P hc, if_neg hi]
      · have hbusy : busy' = busy := by
          cases a <;> first | exact absurd rfl hne | exact (congrArg Prod.fst he).symm
        cases he
        refine .inl ⟨hbusy, fun i => ?_⟩
        rw [Pass.holds_set P hc]
        split
        · next hi => rw [hsame, hi, hk]
        · rfl
    · cases hs
  | gather =>
    obtain ⟨-, ⟨⟩⟩ := ite_none_right_eq_some.mp hs
    exact .inl ⟨rfl, fun i => rfl⟩

/-- Whether the pass has a call of the collector that keeps it busy. -/
def State.holds (s : State π) (p i : Nat) : Prop := ∃ P, s.passes[p]? = some P ∧ P.holds i = true

/-- Every pass is in order, a collector some call keeps busy is in the map, and only one
pass has such a call. -/
structure Ok (reg : Registry) (s : State π) : Prop where
  passes : ∀ P ∈ s.passes, P.Ok reg
  busy : ∀ p i name, s.holds p i → reg.names[i]? = some name → name ∈ s.busy
  one : ∀ p q i, s.holds p i → s.holds q i → p = q

theorem ok_init : Ok reg ({} : State π) := by
  refine ⟨nofun, ?_, ?_⟩
  · rintro p i name ⟨P, hP, -⟩
    cases hP
  · rintro p q i ⟨P, hP, -⟩
    cases hP

theorem Pass.ok_new (reg : Registry) :
    Pass.Ok reg ({ results := List.replicate reg.names.length ⟨[], none⟩ } : Pass π) := by
  refine ⟨nofun, Nat.zero_le _, length_replicate, fun i hi => ?_, nofun⟩
  rw [getElem?_replicate, if_pos hi]
  rfl

theorem State.holds_set {p : Nat} (hP : s.passes[p]? = some P) (busy : List Str) (q i : Nat) :
    State.holds ⟨busy, s.passes.set p P'⟩ q i ↔
      (q = p ∧ P'.holds i = true) ∨ (q ≠ p ∧ s.holds q i) := by
  have hlt := (List.getElem?_eq_some_iff.mp hP).1
  by_cases hq : q = p
  · subst hq
    simp [State.holds, List.getElem?_set_self hlt]
  · simp [State.holds, List.getElem?_set_ne (Ne.symm hq), hq]

theorem Ok.step {s' : State π} {a : Label π} (h : Ok reg s) (hs : step reg s a = some s') :
    Ok reg s' := by
  cases a with
  | begin =>
    cases hs
    have hold : ∀ p i, State.holds { s with
        passes := s.passes ++ [{ results := List.replicate reg.names.length ⟨[], none⟩ }] } p i →
        s.holds p i := by
      rintro p i ⟨P, hP, hi⟩
      simp only [List.getElem?_append] at hP
      split at hP
      · exact ⟨P, hP, hi⟩
      · rw [List.getElem?_singleton] at hP
        split at hP
        · cases hP
          cases hi
        · cases hP
    exact ⟨forall_mem_snoc.mpr ⟨h.passes, Pass.ok_new reg⟩,
      fun p i name hp => h.busy p i name (hold p i hp),
      fun p q i hp hq => h.one p q i (hold p i hp) (hold q i hq)⟩
  | pass p =>
    simp only [Collector.step] at hs
    split at hs
    · cases hs
    · next P hP =>
      obtain ⟨⟨busy', P'⟩, hstep, he⟩ := Option.map_eq_some_iff.mp hs
      cases he
      have hheld : ∀ i, P.holds i = true → s.holds p i := fun i hi => ⟨P, hP, hi⟩
      have hpasses : ∀ Q ∈ s.passes.set p P', Q.Ok reg := by
        intro Q hQ
        rcases List.mem_or_eq_of_mem_set hQ with hQ | rfl
        · exact h.passes Q hQ
        · exact (h.passes P (List.mem_of_getElem? hP)).step hstep
      rcases Pass.step_holds hstep with ⟨rfl, hsame⟩ | ⟨k, name, hk, hfree, rfl, -, hother⟩ |
        ⟨k, name, hk, hkept, rfl, hgone, hother⟩
      · have hold : ∀ q i, State.holds ⟨s.busy, s.passes.set p P'⟩ q i → s.holds q i := by
          intro q i hq
          rcases (State.holds_set hP _ q i).mp hq with ⟨rfl, hi⟩ | ⟨-, hq⟩
          · exact hheld i (hsame i ▸ hi)
          · exact hq
        exact ⟨hpasses, fun q i n hq => h.busy q i n (hold q i hq),
          fun q r i hq hr => h.one q r i (hold q i hq) (hold r i hr)⟩
      · have hold : ∀ q i, State.holds ⟨name :: s.busy, s.passes.set p P'⟩ q i →
            (q = p ∧ i = k) ∨ (i ≠ k ∧ s.holds q i) := by
          intro q i hq
          -- no call keeps the collector that is taken
          have hnone : ∀ q, ¬ s.holds q k := fun q hq => hfree (h.busy q k name hq hk)
          rcases (State.holds_set hP _ q i).mp hq with ⟨rfl, hi⟩ | ⟨-, hq⟩
          · by_cases hik : i = k
            · exact .inl ⟨rfl, hik⟩
            · exact .inr ⟨hik, hheld i (hother i hik ▸ hi)⟩
          · exact .inr ⟨fun hik => hnone q (hik ▸ hq), hq⟩
        refine ⟨hpasses, fun q i n hq hn => ?_, fun q r i hq hr => ?_⟩
        · rcases hold q i hq with ⟨rfl, rfl⟩ | ⟨-, hq⟩
          · rw [hk] at hn
            exact Option.some.inj hn ▸ List.mem_cons_self
          · exact List.mem_cons_of_mem _ (h.busy q i n hq hn)
        · rcases hold q i hq with ⟨rfl, rfl⟩ | ⟨hik, hq⟩ <;>
            rcases hold r i hr with ⟨rfl, hik'⟩ | ⟨hik', hr⟩
          · rfl
          · exact absurd rfl hik'
          · exact absurd hik' hik
          · exact h.one q r i hq hr
      · have hold : ∀ q i, State.holds ⟨finish s.busy name, s.passes.set p P'⟩ q i →
            i ≠ k ∧ s.holds q i := by
          intro q i hq
          rcases (State.holds_set hP _ q i).mp hq with ⟨rfl, hi⟩ | ⟨hqp, hq⟩
          · have hik : i ≠ k := by
              rintro rfl
              exact Bool.false_ne_true (hgone.symm.trans hi)
            exact ⟨hik, hheld i (hother i hik ▸ hi)⟩
          · exact ⟨fun hik => hqp (h.one q p k (hik ▸ hq) (hheld k hkept)), hq⟩
        refine ⟨hpasses, fun q i n hq hn => ?_, fun q r i hq hr =>
          h.one q r i (hold q i hq).2 (hold r i hr).2⟩
        obtain ⟨hik, hq⟩ := hold q i hq
        have hne : n ≠ name := by
          rintro rfl
          exact hik ((List.getElem?_inj (List.getElem?_eq_some_iff.mp hn).1 reg.nodup).mp
            (hn.trans hk.symm))
        exact List.mem_filter.mpr ⟨h.busy q i n hq hn, by simpa using hne⟩

/-! ## What a pass returns -/

/-- The points of the results without error, one after another, and the errors of the
others by name. -/
theorem assemble_spec (l : List (Str × Result π)) (hl : (l.map Prod.fst).Nodup) :
    (assemble l).1 = l.flatMap (fun x => x.2.ok.getD []) ∧
    (∀ x ∈ l, (assemble l).2.lookup x.1 = x.2.err) ∧
    ∀ name, name ∉ l.map Prod.fst → (assemble l).2.lookup name = none := by
  induction l using reverseRecOn with
  | nil => exact ⟨rfl, nofun, fun name _ => Finmap.lookup_empty name⟩
  | append_singleton l x ih =>
    rw [map_append, nodup_append] at hl
    obtain ⟨hpts, hin, hout⟩ := ih hl.1
    have hne : ∀ y ∈ l, y.1 ≠ x.1 := fun y hy =>
      hl.2.2 y.1 (mem_map_of_mem hy) x.1 mem_cons_self
    have hx : x.1 ∉ l.map Prod.fst := fun hx => hl.2.2 x.1 hx x.1 mem_cons_self rfl
    have hlast : assemble (l ++ [x]) = addResult (assemble l) x := by
      rw [assemble, foldl_append]
      rfl
    rw [hlast, flatMap_append, ← hpts, map_append]
    cases he : x.2.err with
    | none =>
      simp only [addResult, he]
      refine ⟨by simp [Result.ok, he], forall_mem_snoc.mpr ⟨hin, ?_⟩, fun name hname => ?_⟩
      · rw [he]
        exact hout x.1 hx
      · exact hout name fun h => hname (mem_append_left _ h)
    | some =>
      simp only [addResult, he]
      refine ⟨by simp [Result.ok, he], forall_mem_snoc.mpr ⟨fun y hy => ?_, ?_⟩,
        fun name hname => ?_⟩
      · rw [Finmap.lookup_insert_of_ne _ (hne y hy)]
        exact hin y hy
      · rw [he, Finmap.lookup_insert]
      · have hnx : name ≠ x.1 := fun h => hname (mem_append_right _ (by simp [h]))
        rw [Finmap.lookup_insert_of_ne _ hnx]
        exact hout name fun h => hname (mem_append_left _ h)

/-- What a pass has of a collector once its watcher is done. -/
theorem slot_ok (hok : ∀ c, o = some c → c.Ok) (hsettled : ∀ c, o = some c → c.settled = true) :
    (slot reg (some o)).ok = o.bind Call.delivers := by
  cases o with
  | none => rfl
  | some c =>
    have hrec := (hok c rfl).received
    have hset := hsettled c rfl
    simp only [slot, bind_some, Call.delivers]
    cases hw : c.watcher with
    | waiting => simp [Call.settled, hw] at hset
    | received r => rw [hrec r hw, bind_some]
    | gaveUp => rfl

theorem Result.err_isSome (r : Result π) : r.err.isSome = true ↔ r.ok = none := by
  cases h : r.err <;> simp [Result.ok, h]

/-- The pass has been at every collector, and returns the points of its own calls that
returned without error and were not given up, in the order of registration, and an error
for every other collector. -/
structure Returns (reg : Registry) (P : Pass π) (points : List π) (errs : Map Str Str) :
    Prop where
  all : P.calls.length = reg.names.length
  points : points = P.calls.flatMap fun o => (o.bind Call.delivers).getD []
  errs : ∀ (i : Nat) (name : Str) (o : Option (Call π)), reg.names[i]? = some name →
    P.calls[i]? = some o → ((errs.lookup name).isSome = true ↔ o.bind Call.delivers = none)

theorem Pass.Ok.returned (h : P.Ok reg) {points : List π} {errs : Map Str Str}
    (he : P.ended = some (points, errs)) : Returns reg P points errs := by
  obtain ⟨hout, hlen, hsettled⟩ := h.ended _ he
  have hslot : ∀ o ∈ P.calls, (slot reg (some o)).ok = o.bind Call.delivers := by
    intro o ho
    exact slot_ok (fun c hc => h.calls c (hc ▸ ho)) fun c hc => hsettled c (hc ▸ ho)
  have hresults : P.results = P.calls.map fun o => slot reg (some o) := by
    apply ext_getElem?
    intro i
    rw [getElem?_map]
    by_cases hi : i < reg.names.length
    · rw [h.results i hi, getElem?_eq_getElem (hlen ▸ hi)]
      rfl
    · rw [getElem?_eq_none (by rw [h.length]; omega), getElem?_eq_none (by rw [hlen]; omega)]
      rfl
  have hfst : (reg.names.zip P.results).map Prod.fst = reg.names :=
    map_fst_zip (Nat.le_of_eq h.length.symm)
  have hsnd : (reg.names.zip P.results).map Prod.snd = P.results :=
    map_snd_zip (Nat.le_of_eq h.length)
  obtain ⟨hpts, hin, -⟩ := assemble_spec (reg.names.zip P.results) (by rw [hfst]; exact reg.nodup)
  have hp : points = (assemble (reg.names.zip P.results)).1 := congrArg Prod.fst hout
  have herrs : errs = (assemble (reg.names.zip P.results)).2 := congrArg Prod.snd hout
  refine ⟨hlen, ?_, fun i name o hname ho => ?_⟩
  · calc points = (reg.names.zip P.results).flatMap (fun x => x.2.ok.getD []) := hp.trans hpts
      _ = P.results.flatMap (fun r => r.ok.getD []) := by
          conv_rhs => rw [← hsnd, flatMap_map]
      _ = P.calls.flatMap (fun o => (slot reg (some o)).ok.getD []) := by
          rw [hresults, flatMap_map]
      _ = P.calls.flatMap (fun o => (o.bind Call.delivers).getD []) :=
          flatMap_congr fun o ho => by rw [hslot o ho]
  · have hr : P.results[i]? = some (slot reg (some o)) := by
      rw [hresults, getElem?_map, ho]
      rfl
    have hmem : (name, slot reg (some o)) ∈ reg.names.zip P.results :=
      mem_of_getElem? (getElem?_zip_eq_some.mpr ⟨hname, hr⟩)
    rw [herrs, hin _ hmem, Result.err_isSome, hslot o (mem_of_getElem? ho)]

/-- In every state that passes reach, whatever the calls do and whenever, no collector has
two calls in progress, and each pass that has returned has returned what its own calls
delivered. -/
theorem registry_isolation (reg : Registry) (as : List (Label π)) (s : State π)
    (h : run (step reg) {} as = some s) :
    (∀ (p q i : Nat) (P Q : Pass π), s.passes[p]? = some P → s.passes[q]? = some Q →
      P.collecting i → Q.collecting i → p = q) ∧
    ∀ P ∈ s.passes, ∀ points errs, P.ended = some (points, errs) →
      Returns reg P points errs := by
  have hok : Ok reg s := run_inv (fun s a s' hs hstep => hs.step hstep) as {} s ok_init h
  refine ⟨fun p q i P Q hP hQ hp hq => ?_,
    fun P hP points errs he => (hok.passes P hP).returned he⟩
  have hholds : ∀ {P : Pass π}, P.collecting i → P.holds i = true := by
    rintro P ⟨c, hc, hw⟩
    simp [Pass.holds, hc, Call.holds, hw]
  exact hok.one p q i ⟨P, hP, hholds hp⟩ ⟨Q, hQ, hholds hq⟩

def oneCollector : Registry := ⟨["cpu".toList], by decide, "20s".toList⟩

/-- A pass that gives its call up, which goes on while the next pass finds the collector
busy, and a third pass that has the points of a new call. -/
def threePasses : List (Label Nat) :=
  [.begin, .pass 0 .next, .pass 0 (.call 0 .expire), .pass 0 (.call 0 .giveUp), .pass 0 .gather,
   .begin, .pass 1 .next, .pass 1 .gather,
   .pass 0 (.call 0 (.collected ⟨[7], none⟩)), .pass 0 (.call 0 .send),
   .pass 0 (.call 0 .finish),
   .begin, .pass 2 .next, .pass 2 (.call 0 (.collected ⟨[8], none⟩)), .pass 2 (.call 0 .send),
   .pass 2 (.call 0 .receive), .pass 2 .gather]

theorem third_pass_returns : ∃ s P points errs, run (step oneCollector) {} threePasses = some s ∧
    s.passes[2]? = some P ∧ P.ended = some (points, errs) ∧ points = [8] ∧
    Returns oneCollector P points errs := by
  obtain ⟨s, P, errs, hs, hP, he⟩ : ∃ s P errs,
      run (step oneCollector) {} threePasses = some s ∧ s.passes[2]? = some P ∧
      P.ended = some ([8], errs) := ⟨_, _, _, rfl, rfl, rfl⟩
  exact ⟨s, P, [8], errs, hs, hP, he, rfl,
    (registry_isolation oneCollector threePasses s hs).2 P (mem_of_getElem? hP) [8] errs he⟩

/-- The call has returned without error, and its result waits in the channel, when its
context is done as well. The watcher may then give it up, and the pass returns an error
and no points. -/
theorem given_up_after_return : ∃ s s' P P' c errs,
    run (step oneCollector) {} [.begin, .pass 0 .next,
      .pass 0 (.call 0 (.collected ⟨[7], none⟩)), .pass 0 (.call 0 .send),
      .pass 0 (.call 0 .expire)] = some s ∧
    s.passes[0]? = some P ∧ P.calls[0]? = some (some c) ∧
    c.worker.result? = some ⟨[7], none⟩ ∧ c.watcher = .waiting ∧
    run (step oneCollector) s [.pass 0 (.call 0 .giveUp), .pass 0 .gather] = some s' ∧
    s'.passes[0]? = some P' ∧ P'.ended = some ([], errs) ∧
    errs.lookup "cpu".toList = some "timed out after 20s".toList :=
  ⟨_, _, _, _, _, _, rfl, rfl, rfl, rfl, rfl, rfl, rfl, rfl, rfl⟩

end YominsAgent.Collector
