import Chevalier.Vfs.Linearizable

/-!
# Locks are taken in one order

A call takes its locks one after the other and keeps those it has while it waits. It takes them in the
lexical order of their texts, so that a call that waits for the greatest lock waits for none that a
waiting call has.

* `ascending_lockWithTargetMode`: the locks of a call ascend.
* `calls_go_on`: in every interleaving, some call can go on until all have finished.
-/

namespace Chevalier.Vfs

open List Posix Locks Schedule

/-- The text a lock is kept under. -/
def lockText (key : Path) : String := "/".intercalate key

/-- The components of a key are those of its text. -/
def Spelled (key : Path) : Prop := ∀ part ∈ key, part ≠ "" ∧ '/' ∉ part.toList

theorem lockText_injOn : Set.InjOn lockText {key | Spelled key} := by
  have hparts : ∀ key, Spelled key →
      ((lockText key).toList.splitOn '/').filter (· ≠ []) = key.map String.toList := by
    intro key hk
    by_cases hne : key = []
    · subst hne
      rfl
    rw [lockText, String.toList_intercalate]
    have hsplit := @splitOn_intercalate _ (key.map String.toList) _ _ '/'
      (by simpa using fun part hp => (hk part hp).2) (by simpa using hne)
    refine (congrArg (List.filter _) hsplit).trans (filter_eq_self.2 ?_)
    simpa using fun part hp => (hk part hp).1
  intro a ha b hb heq
  refine map_injective_iff.2 (fun _ _ => String.toList_inj.1) ?_
  rw [← hparts a ha, ← hparts b hb, heq]

/-- Locks in the order in which they are taken. -/
def Ascending (locks : List (Path × Mode)) : Prop :=
  locks.Pairwise fun a b => lockText a.1 < lockText b.1

theorem ascending_lockWithTargetMode {keys : List LogicalPath}
    (h : ∀ key ∈ keys, ∀ part ∈ key, '/' ∉ part.toList) : Ascending (lockWithTargetMode keys) := by
  refine pairwise_map.2 ?_
  have hspelled : ∀ key ∈ ((keys.map lockParts).flatMap inits).dedup, Spelled key := by
    intro key hk part hp
    rw [mem_dedup, mem_flatMap] at hk
    obtain ⟨_, ht, hpre⟩ := hk
    obtain ⟨path, hpath, rfl⟩ := mem_map.1 ht
    obtain ⟨hpart, hne⟩ := mem_filter.1 (((mem_inits ..).1 hpre).subset hp)
    exact ⟨of_decide_eq_true hne, h path hpath part hpart⟩
  have : Std.Total fun a b : Path => lockText a ≤ lockText b := ⟨fun _ _ => le_total _ _⟩
  have : IsTrans Path fun a b => lockText a ≤ lockText b := ⟨fun _ _ _ => le_trans⟩
  have hsorted := pairwise_insertionSort (fun a b : Path => lockText a ≤ lockText b)
    ((keys.map lockParts).flatMap inits).dedup
  have hnodup := (perm_insertionSort (fun a b : Path => lockText a ≤ lockText b) _).nodup_iff.2
    ((keys.map lockParts).flatMap inits).nodup_dedup
  refine (hsorted.and hnodup).imp_of_mem fun ha hb hab => lt_of_le_of_ne hab.1 fun heq => hab.2 ?_
  rw [mem_insertionSort] at ha hb
  exact lockText_injOn (hspelled _ ha) (hspelled _ hb) heq

/-- No component of a key that is looked up holds a separator. -/
def Slashless (host : Host) (calls : List Call) : Move → Traffic → Prop
  | .keys c cached, s => ∀ call ∈ calls[c]?, ∀ key ∈ call.paths.flatMap (lockKeys host cached s.fs),
    ∀ part ∈ key, '/' ∉ part.toList
  | .acquire _, _ | .check _, _ | .install _, _ => True

instance (host : Host) (calls : List Call) (move : Move) (s : Traffic) :
    Decidable (Slashless host calls move s) :=
  match move with
  | .keys _ _ => inferInstanceAs (Decidable (∀ _ ∈ _, _))
  | .acquire _ | .check _ | .install _ => inferInstanceAs (Decidable True)

variable {host : Host} {calls : List Call} {s t : Traffic} {move : Move} {moves : List Move}
  {c : Nat}

/-- Every call takes its locks in ascending order. -/
def Orderly (s : Traffic) : Prop :=
  ∀ c held waiting, s.phase c = .locking held waiting → Ascending (held.reverse ++ waiting)

theorem Orderly.step (h : Orderly s) (hm : Slashless host calls move s)
    (he : exec host calls move s = some t) : Orderly t := by
  have hnext : ∀ {c phase}, t.phase = Function.update s.phase c phase →
      (∀ held waiting, phase = .locking held waiting → Ascending (held.reverse ++ waiting)) →
      Orderly t := by
    intro c phase ht hp d held waiting hd
    rw [ht] at hd
    by_cases heq : d = c
    · subst heq
      exact hp held waiting (by simpa using hd)
    · exact h d held waiting (by simpa [heq] using hd)
  cases move with
  | keys c cached =>
    obtain ⟨call, hc, -, rfl⟩ := exec_keys_eq_some he
    refine hnext rfl fun held waiting hp => ?_
    cases hp
    exact ascending_lockWithTargetMode (hm call hc)
  | acquire c =>
    obtain ⟨held, lock, waiting, hp, -, rfl⟩ := exec_acquire_eq_some he
    refine hnext rfl fun held' waiting' hp' => ?_
    cases hp'
    simpa using h c held (lock :: waiting) hp
  | check c =>
    obtain ⟨_, _, -, -, -, ⟨_, -, hp⟩ | ⟨_, -, hp⟩⟩ := exec_check_eq_some he
    · exact hnext hp nofun
    · exact hnext hp nofun
  | install c =>
    obtain ⟨_, _, _, -, rfl⟩ := exec_install_eq_some he
    exact hnext rfl nofun

/-- A call that has not finished waits for a lock, or can go on. -/
theorem waits_or_goes_on (hc : c < calls.length)
    (hn : ∀ outcome, s.phase c ≠ .finished outcome) :
    (∃ held lock waiting, s.phase c = .locking held (lock :: waiting)) ∨
      ∃ move t, exec host calls move s = some t := by
  have hcall : calls[c]? = some calls[c] := getElem?_eq_getElem hc
  cases hp : s.phase c with
  | ready => exact .inr ⟨.keys c fun _ => none, _, by simp only [exec, hcall, hp]; rfl⟩
  | locking held waiting =>
    cases waiting with
    | cons lock waiting => exact .inl ⟨held, lock, waiting, rfl⟩
    | nil =>
      refine .inr ⟨.check c, ?_⟩
      simp only [exec, hcall, hp]
      split <;> exact ⟨_, rfl⟩
  | checked held prepared =>
    refine .inr ⟨.install c, ?_⟩
    simp only [exec, hp]
    split <;> exact ⟨_, rfl⟩
  | finished outcome => exact absurd hp (hn outcome)

/-- **Calls do not deadlock.** In every interleaving of any calls, as long as one of them has not
finished, one of them can go on. -/
theorem calls_go_on {fs : FileSystem}
    (hrun : run (guarded (Slashless host calls) (exec host calls)) moves (.start fs) = some s)
    (hc : c < calls.length) (hn : ∀ outcome, s.phase c ≠ .finished outcome) :
    ∃ move t, exec host calls move s = some t := by
  classical
  have : Inhabited Mode := ⟨.read⟩
  have ho : Orderly s := guarded_invariant (fun _ _ _ h hm he => h.step hm he) hrun
    fun _ _ _ h => by cases h
  by_contra hstuck
  have hwaits : ∀ c, c < calls.length ∧ (∀ outcome, s.phase c ≠ .finished outcome) →
      ∃ held lock waiting, s.phase c = .locking held (lock :: waiting) :=
    fun c hc => (waits_or_goes_on hc.1 hc.2).resolve_right hstuck
  choose! held lock waiting hp using hwaits
  -- of the calls that wait, one waits for a lock that none of them has
  obtain ⟨d, hd, hfree⟩ := exists_free lockText held lock
    (W := (Finset.range calls.length).filter fun c => ∀ outcome, s.phase c ≠ .finished outcome)
    ⟨c, by simpa using ⟨hc, hn⟩⟩ fun i hi other hmem => by
      have hasc := ho i _ _ (hp i (by simpa using hi))
      exact (pairwise_append.1 hasc).2.2 other (mem_reverse.2 hmem) _ mem_cons_self
  rw [Finset.mem_filter, Finset.mem_range] at hd
  have hall : ∀ other < calls.length, other ≠ d → Free (lock d) (s.phase other).held := by
    intro other hl _
    by_cases hfin : ∀ outcome, s.phase other ≠ .finished outcome
    · rw [hp other ⟨hl, hfin⟩]
      exact hfree other (by simpa using ⟨hl, hfin⟩)
    · obtain ⟨outcome, hother⟩ := not_forall_not.1 hfin
      rw [hother]
      exact nofun
  exact hstuck ⟨.acquire d, _, by simp only [exec, hp d hd]; exact if_pos hall⟩

def twoWriters : List Call := [expectOne ["f"] [2], expectOne ["f"] [3]]

/-- Of two writers of one file, the second one waits for the first. -/
def secondWaits : Option Traffic :=
  run (guarded (Slashless Host.reference twoWriters) (exec Host.reference twoWriters))
    (writersInTurn.take 6) (.start fileAndDirectory)

theorem calls_go_on_inTurn : ∃ s, secondWaits = some s ∧ (s.phase 1).held ≠ [] ∧
    ∃ move t, exec Host.reference twoWriters move s = some t := by
  obtain ⟨s, hrun, hh⟩ : ∃ s, secondWaits = some s ∧ (s.phase 1).held ≠ [] :=
    exists_of_run (by decide +kernel)
  exact ⟨s, hrun, hh, calls_go_on hrun (c := 1) (by decide) fun outcome hf => by
    simp [hf, Phase.held] at hh⟩

end Chevalier.Vfs
