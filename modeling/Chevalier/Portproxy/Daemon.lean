import Chevalier.Foundations.Places
import Chevalier.Foundations.Schedule

/-!
# The processes of a named guest execution

`exec_daemon` looks its name up under the read lock, spawns a child without a lock, and enters it
under the write lock; if the name was entered meanwhile it kills its child. The entry is removed
some time after the child exited. The registry is the part that calls with one name see.

* `exec_daemon_starts_one_process`: while a name is looked up only when no other call is about to
  enter it, one child is spawned for it, and one call reports that it is new.
* `two_processes`: two calls that look the name up first each spawn a child.
-/

namespace Chevalier.Portproxy

open List

inductive DaemonError
  | alreadyRunning
  | invalidRequest (message : String)
  | spawn (message : String)
deriving DecidableEq

/-- What a child may lack. -/
inductive Lack
  | pid
  | stdin
  | stdout
  | stderr
deriving DecidableEq

def Lack.error : Lack → DaemonError
  | .pid => .spawn "spawned daemon without pid"
  | .stdin => .invalidRequest "failed to capture stdin"
  | .stdout => .invalidRequest "failed to capture stdout"
  | .stderr => .invalidRequest "failed to capture stderr"

inductive Spawn
  | failed (error : String)
  | lacking (pid : Nat) (lack : Lack)
  | child (pid : Nat)
deriving DecidableEq

/-- Where a call of `exec_daemon` is. -/
inductive Phase
  /-- The name was not there. -/
  | absent
  | spawned (pid : Nat)
  /-- It returned that its child is new. -/
  | started (pid : Nat)
  /-- It returned that the name was there. -/
  | found
  | failed (error : DaemonError)
deriving DecidableEq

/-- A call that may still enter a child. -/
def Phase.Entering : Phase → Prop
  | .absent | .spawned _ => True
  | _ => False

instance (phase : Phase) : Decidable phase.Entering := by
  cases phase <;> unfold Phase.Entering <;> infer_instance

/-- What the service answers: `is_new`, if it does not fail. -/
def Phase.isNew : Phase → Option Bool
  | .started _ => some true
  | .found | .failed .alreadyRunning => some false
  | _ => none

structure DaemonRegistry where
  entry : Option Nat
  calls : List Phase
  spawned : List Nat
  killed : List Nat

def DaemonRegistry.new : DaemonRegistry := ⟨none, [], [], []⟩

inductive Action
  | execDaemon (args : List String)
  | spawn (call : Nat) (outcome : Spawn)
  | register (call : Nat)
  | remove

def lookUp (name : String) (args : List String) (entry : Option Nat) : Phase :=
  if name = "" then .failed (.invalidRequest "name is required")
  else if args = [] then .failed (.invalidRequest "args must not be empty")
  else if entry.isSome then .found
  else .absent

def exec (name : String) : Action → DaemonRegistry → Option DaemonRegistry
  | .execDaemon args, s => some { s with calls := s.calls ++ [lookUp name args s.entry] }
  | .spawn call outcome, s =>
    if s.calls[call]? = some .absent then
      match outcome with
      | .failed error => some { s with calls := s.calls.set call (.failed (.spawn error)) }
      | .lacking pid lack => some { s with
          calls := s.calls.set call (.failed lack.error)
          spawned := s.spawned ++ [pid]
          killed := s.killed ++ [pid] }
      | .child pid => some { s with
          calls := s.calls.set call (.spawned pid)
          spawned := s.spawned ++ [pid] }
    else none
  | .register call, s =>
    match s.calls[call]? with
    | some (.spawned pid) =>
      if s.entry.isSome then some { s with
        calls := s.calls.set call (.failed .alreadyRunning)
        killed := s.killed ++ [pid] }
      else some { s with calls := s.calls.set call (.started pid), entry := some pid }
    | _ => none
  | .remove, s => some { s with entry := none }

/-- The name is looked up while no call is about to enter it, children have their pid and their
pipes, and the entry stays. -/
def Apart : Action → DaemonRegistry → Prop
  | .execDaemon _, s => ∀ phase ∈ s.calls, ¬ phase.Entering
  | .spawn _ (.lacking _ _), _ | .remove, _ => False
  | _, _ => True

instance (action : Action) (s : DaemonRegistry) : Decidable (Apart action s) := by
  unfold Apart
  split <;> infer_instance

namespace DaemonRegistry

variable {name : String} {s t : DaemonRegistry} {phase p : Phase}

/-- The call whose child is, or is to be, the one of the name. -/
def Owner (s : DaemonRegistry) : Phase → Prop
  | .absent => s.entry = none ∧ s.spawned = []
  | .spawned pid => s.entry = none ∧ s.spawned = [pid]
  | .started pid => s.entry = some pid ∧ s.spawned = [pid]
  | .found | .failed _ => False

/-- A call that owns nothing. -/
def Other (s : DaemonRegistry) : Phase → Prop
  | .found => s.entry.isSome
  | .failed error => error ≠ .alreadyRunning
  | .absent | .spawned _ | .started _ => False

/-- No call owns the name, or one does. -/
inductive Sound (s : DaemonRegistry) : Prop
  | free (hentry : s.entry = none) (hspawned : s.spawned = [])
      (hothers : ∀ (i : Nat) phase, s.calls[i]? = some phase → s.Other phase)
  | owned (owner : Nat) (phase : Phase) (hcall : s.calls[owner]? = some phase)
      (howner : s.Owner phase)
      (hothers : ∀ (i : Nat) phase, i ≠ owner → s.calls[i]? = some phase → s.Other phase)

/-- A call that is not over owns the name. -/
theorem Sound.of_entering (h : s.Sound) {call : Nat} (hc : s.calls[call]? = some p)
    (he : p.Entering) : s.Owner p ∧ ∀ (i : Nat) p, i ≠ call → s.calls[i]? = some p → s.Other p := by
  have hnot : ¬ s.Other p := by
    cases p with
    | absent | spawned => exact id
    | _ => exact he.elim
  cases h with
  | free _ _ ho => exact absurd (ho call p hc) hnot
  | owned o f hf how ho =>
    by_cases heq : call = o
    · subst heq
      cases hf.symm.trans hc
      exact ⟨how, ho⟩
    · exact absurd (ho call p heq hc) hnot

theorem lookUp_cases (name : String) (args : List String) (s : DaemonRegistry) :
    s.Other (lookUp name args s.entry) ∨ lookUp name args s.entry = .absent ∧ s.entry = none := by
  unfold lookUp
  split_ifs with _ _ hs
  · exact .inl nofun
  · exact .inl nofun
  · exact .inl hs
  · exact .inr ⟨rfl, by simpa using hs⟩

/-- A call is added that finds the registry as it is. -/
theorem Sound.lookUp (h : s.Sound) {args : List String}
    (ha : ∀ p ∈ s.calls, ¬ p.Entering) :
    Sound { s with calls := s.calls ++ [Portproxy.lookUp name args s.entry] } := by
  have hc := lookUp_cases name args s
  cases h with
  | free he hs ho =>
    rcases hc with hnew | ⟨hnew, -⟩
    · exact .free he hs fun i p hp =>
        (getElem?_concat_cases hp).elim (ho i p) fun ⟨_, heq⟩ => heq ▸ hnew
    · rw [hnew]
      refine .owned s.calls.length .absent getElem?_concat_length ⟨he, hs⟩ fun i p hne hp => ?_
      exact ho i p ((getElem?_concat_cases hp).resolve_right fun heq => hne heq.1)
  | owned o p hca how ho =>
    cases p with
    | absent | spawned => exact absurd trivial (ha _ (mem_of_getElem? hca))
    | found | failed => exact how.elim
    | started =>
      have hnew := hc.resolve_right fun hn => by simp [how.1] at hn
      refine .owned o _ (getElem?_append_of_some hca) how fun i p hne hp => ?_
      exact (getElem?_concat_cases hp).elim (ho i p hne) fun ⟨_, heq⟩ => heq ▸ hnew

theorem Sound.step (h : s.Sound) {a : Action} (ha : Apart a s)
    (hs : exec name a s = some t) : t.Sound := by
  cases a with
  | execDaemon =>
    cases hs
    exact h.lookUp ha
  | spawn call o =>
    simp only [exec] at hs
    split at hs
    · next hc =>
      obtain ⟨⟨he, hsp⟩, ho⟩ := h.of_entering hc trivial
      cases o with
      | lacking => exact ha.elim
      | failed =>
        cases hs
        refine .free he hsp fun i p hp => ?_
        rcases getElem?_set_cases hp with ⟨-, rfl⟩ | ⟨hne, hp⟩
        · exact nofun
        · exact ho i p hne hp
      | child =>
        cases hs
        refine .owned call _ (getElem?_set_of_some hc) ⟨he, by simp [hsp]⟩ fun i p hne hp => ?_
        rw [getElem?_set_ne hne.symm] at hp
        exact ho i p hne hp
    · cases hs
  | register call =>
    simp only [exec] at hs
    split at hs
    · next pid hc =>
      obtain ⟨⟨he, hsp⟩, ho⟩ := h.of_entering hc trivial
      rw [he] at hs
      cases hs
      refine .owned call _ (getElem?_set_of_some hc) ⟨rfl, hsp⟩ fun i p hne hp => ?_
      rw [getElem?_set_ne hne.symm] at hp
      have hot := ho i p hne hp
      cases p with
      | found => rfl
      | _ => exact hot
    · cases hs
  | remove => exact ha.elim

/-- A call that owns nothing and is answered has found the entry. -/
theorem Other.answered (h : s.Other p) (hn : p.isNew.isSome) :
    p.isNew = some false ∧ s.entry.isSome := by
  cases p with
  | found => exact ⟨rfl, h⟩
  | failed e =>
    cases e with
    | alreadyRunning => exact absurd rfl h
    | _ => cases hn
  | _ => exact h.elim

/-- The entry is that of the call that started it. -/
theorem Sound.entered (h : s.Sound) (he : s.entry.isSome) :
    ∃ o pid, s.calls[o]? = some (.started pid) ∧ s.Owner (.started pid) ∧
      ∀ (i : Nat) p, i ≠ o → s.calls[i]? = some p → s.Other p := by
  cases h with
  | free hn =>
    rw [hn] at he
    cases he
  | owned o p hc ho hot =>
    cases p with
    | started pid => exact ⟨o, pid, hc, ho, hot⟩
    | absent | spawned =>
      rw [ho.1] at he
      cases he
    | _ => exact ho.elim

end DaemonRegistry

/-- **A named execution starts one process.** While the name is looked up only when no other call is
about to enter it, and until its entry is removed, at most one child is spawned, a call that is
answered agrees that the entry is that child, and one call reports that it is new. -/
theorem exec_daemon_starts_one_process (name : String) (actions : List Action) (s : DaemonRegistry)
    (hrun : Schedule.run (Schedule.guarded Apart (exec name)) actions .new = some s) :
    s.spawned.length ≤ 1 ∧
      (∀ phase ∈ s.calls, phase.isNew.isSome → ∃ pid, s.entry = some pid ∧ s.spawned = [pid] ∧
        ∀ own, phase = .started own → own = pid) ∧
      (s.entry.isSome → ∃! call : Nat, s.calls[call]?.bind Phase.isNew = some true) := by
  have hs : s.Sound := Schedule.guarded_invariant
    (fun _ _ _ h ha hst => h.step ha hst) hrun (.free rfl rfl nofun)
  refine ⟨?_, fun phase hp hn => ?_, fun he => ?_⟩
  · cases hs with
    | free _ hsp => simp [hsp]
    | owned _ phase _ how =>
      cases phase with
      | absent | spawned | started => simp [how.2]
      | _ => exact how.elim
  · obtain ⟨call, hc⟩ := List.mem_iff_getElem?.1 hp
    have he : s.entry.isSome := by
      cases hs with
      | free _ _ ho => exact ((ho call phase hc).answered hn).2
      | owned o f hfo how ho =>
        by_cases heq : call = o
        · subst heq
          cases hfo.symm.trans hc
          cases phase with
          | started pid => exact Option.isSome_iff_exists.2 ⟨pid, how.1⟩
          | absent | spawned => cases hn
          | _ => exact how.elim
        · exact ((ho call phase heq hc).answered hn).2
    obtain ⟨o, pid, hown, ⟨hpi, hsp⟩, ho⟩ := hs.entered he
    refine ⟨pid, hpi, hsp, ?_⟩
    rintro own rfl
    by_cases heq : call = o
    · cases (heq ▸ hown).symm.trans hc
      rfl
    · exact (ho call _ heq hc).elim
  · obtain ⟨o, pid, hown, -, ho⟩ := hs.entered he
    refine ⟨o, by simp [hown, Phase.isNew], fun call hc => ?_⟩
    obtain ⟨phase, hp, hn⟩ := Option.bind_eq_some_iff.1 hc
    by_contra hne
    have hf := ((ho call phase hne hp).answered (by rw [hn]; rfl)).1
    cases hn.symm.trans hf

/-- A second call, made after the first one has entered its child, finds it. -/
theorem exec_daemon_starts_one_process_found :
    ∃ s, Schedule.run (Schedule.guarded Apart (exec "build"))
        [.execDaemon ["make"], .spawn 0 (.child 7), .register 0, .execDaemon ["make"]] .new =
          some s ∧
      (s.calls[1]? = some .found ∧ s.entry = some 7) ∧ s.spawned.length ≤ 1 := by
  exact Schedule.exists_of_run_and (by decide +kernel) fun s hrun _ =>
    (exec_daemon_starts_one_process "build" _ s hrun).1

/-- Two calls look the name up before either has entered its child. -/
theorem two_processes :
    ∃ s, Schedule.run (exec "build") [.execDaemon ["make"], .execDaemon ["make"],
        .spawn 0 (.child 7), .spawn 1 (.child 8), .register 0, .register 1] .new = some s ∧
      s.spawned = [7, 8] ∧ s.entry = some 7 ∧ s.calls.map Phase.isNew = [some true, some false] :=
  Schedule.exists_of_run (by decide +kernel)

end Chevalier.Portproxy
