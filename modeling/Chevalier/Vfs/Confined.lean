import Chevalier.Vfs.Atomic
import Chevalier.Vfs.Forward
import Chevalier.Vfs.Locks

/-!
# What a call can change

A call changes the names at and below its paths, makes missing directories above them, and writes to
the files they name. Its staging files have names that no call uses, and inodes that are not in use.

* `check_confined`: checking a call makes directories and staging files, and changes no bytes.
* `install_confined`: installing changes what lies at or below the paths of the call, and the bytes of
  the files they name.
-/

namespace Chevalier.Vfs

open Posix Calls List

/-- The names of a list that do not lie at or below certain paths stay, up to new directories above
them; bytes stay apart from certain inodes and from those that are not in use. -/
structure Confined (names below above : List Path) (inodes : Nat → Prop) (fs fs' : FileSystem) :
    Prop where
  node : ∀ path ∈ names, (∀ changed ∈ below, ¬ changed <+: path) →
    fs'.node path = fs.node path ∨
      fs.node path = none ∧ fs'.IsDirectory path ∧ ∃ target ∈ above, path <+: target
  bytes : ∀ inode < fs.fresh, (fs'.data inode).bytes = (fs.data inode).bytes ∨ inodes inode
  fresh : fs.fresh ≤ fs'.fresh

section

variable {host : Host} {names n below be above ab : List Path} {inodes i : Nat → Prop}
  {fs fs' fs'' : FileSystem}

theorem Confined.refl (fs : FileSystem) : Confined n be ab i fs fs :=
  ⟨fun _ _ _ => .inl rfl, fun _ _ => .inl rfl, le_rfl⟩

theorem Confined.trans (h : Confined n be ab i fs fs')
    (h' : Confined n be ab i fs' fs'') :
    Confined n be ab i fs fs'' where
  node path hp hb := by
    rcases h'.node path hp hb with hs' | ⟨hn', hd', ht⟩
    · rcases h.node path hp hb with hs | ⟨hn, ⟨mode, hm⟩, ht⟩
      · exact .inl (hs'.trans hs)
      · exact .inr ⟨hn, ⟨mode, hs'.trans hm⟩, ht⟩
    · rcases h.node path hp hb with hs | ⟨-, ⟨mode, hm⟩, -⟩
      · exact .inr ⟨hs ▸ hn', hd', ht⟩
      · rw [hn'] at hm
        cases hm
  bytes ino hi := by
    rcases h'.bytes ino (hi.trans_le h.fresh) with hs' | hw
    · rcases h.bytes ino hi with hs | hw
      · exact .inl (hs'.trans hs)
      · exact .inr hw
    · exact .inr hw
  fresh := h.fresh.trans h'.fresh

instance : IsPreorder FileSystem (Confined names below above inodes) where
  refl := .refl
  trans _ _ _ := .trans

/-! ## The steps of a call -/

/-- A step that only changes some names. -/
theorem Confined.of_node (hd : fs'.data = fs.data) (hf : fs'.fresh = fs.fresh)
    (hn : ∀ path ∈ n, (∀ c ∈ be, ¬ c <+: path) →
      fs'.node path = fs.node path ∨
        fs.node path = none ∧ fs'.IsDirectory path ∧ ∃ t ∈ ab, path <+: t) :
    Confined n be ab i fs fs' :=
  ⟨hn, fun _ _ => .inl (by rw [hd]), hf.ge⟩

variable {path : Path}

theorem confined_of_mkdirAll (h : mkdirAll host fs path = .ok fs')
    (ht : path ∈ ab) : Confined n be ab i fs fs' := by
  refine .of_node (mkdirAll_data h).1 (mkdirAll_data h).2 fun o _ _ => ?_
  rcases mkdirAll_node h o with hs | ⟨hn, hd, hb⟩
  · exact .inl hs
  · exact .inr ⟨hn, hd, path, ht, hb⟩

/-- Setting the mode of a file changes no bytes. -/
theorem confined_of_chmod {mode : Nat} (h : fs.chmod path mode = .ok fs')
    (hp : path ∈ be ∨ path ∉ n ∨ ¬ fs.IsDirectory path) :
    Confined n be ab i fs fs' := by
  rcases chmod_eq_ok h with ⟨hd, rfl⟩ | ⟨ino, -, rfl⟩
  · refine .of_node rfl rfl fun o ho ha => .inl ?_
    rw [FileSystem.node_setDirectoryMode, if_neg]
    rintro rfl
    rcases hp with hb | hu | hl
    · exact ha o hb prefix_rfl
    · exact hu ho
    · exact hl hd
  · refine ⟨fun _ _ _ => .inl rfl, fun o _ => .inl ?_, le_rfl⟩
    by_cases heq : o = ino
    · simp [FileSystem.setData, heq]
    · simp [FileSystem.setData, heq]

theorem applyExactMode_confined {mode : Nat} {am : Bool}
    (hp : path ∈ be ∨ path ∉ n ∨ ¬ fs.IsDirectory path) :
    Confined n be ab i fs (last ((applyExactMode host path mode am).run fs)) := by
  refine last_inspect_bind fun l _ => ?_
  split
  · split_ifs
    · exact .refl fs
    · exact .refl fs
  · exact .refl fs
  · exact .refl fs
  · exact last_bind
      (last_perform fun next hn => confined_of_chmod hn hp)
      fun _ mid _ => .refl mid

theorem applyWriteOptions_confined {o : Option WriteOptions}
    {pm : Option Nat} (hp : path ∈ be ∨ path ∉ n ∨ ¬ fs.IsDirectory path) :
    Confined n be ab i fs (last ((applyWriteOptions host path o pm).run fs)) := by
  cases o with
  | none => exact .refl fs
  | some =>
    exact last_inspect_bind fun mode _ =>
      last_bind (applyExactMode_confined hp) fun _ mid _ => .refl mid

/-! ## Checking -/

theorem completeExactWriteReplay_confined (r : ExactWriteReplay) :
    Confined n be ab i fs (last ((completeExactWriteReplay host r).run fs)) := by
  refine last_inspect_bind fun f hf => ?_
  cases f with
  | false => exact .refl fs
  | true =>
    -- the target is a regular file
    have hl : ¬ fs.IsDirectory r.destination := by
      obtain ⟨-, -, hf⟩ := Fold.bind_eq_ok.1 hf
      rintro ⟨mode, hm⟩
      rw [FileSystem.lstat_eq_ok.2 hm] at hf
      cases hf
    cases r.requestedOptions with
    | none => exact .refl fs
    | some =>
      refine last_inspect_bind fun pm _ => ?_
      refine last_bind (applyWriteOptions_confined (.inr (.inr hl))) fun _ mid _ => ?_
      refine last_inspect_bind fun mode _ => ?_
      split_ifs
      · exact .refl mid
      · exact .refl mid

theorem completeExactWriteReplays_confined (re : List ExactWriteReplay) :
    Confined n be ab i fs (last ((completeExactWriteReplays host re).run fs)) := by
  induction re generalizing fs with
  | nil => exact .refl fs
  | cons r _ ih =>
    exact last_bind (completeExactWriteReplay_confined r)
      fun _ mid _ => last_bind ih fun _ mid _ => .refl mid

theorem confined_of_createFile {c : FileData}
    (h : fs.createFile path c = .ok fs') (hp : path ∉ n) :
    Confined n be ab i fs fs' := by
  obtain ⟨-, hn, hd, _⟩ := FileSystem.createFile_eq_ok.1 h
  refine ⟨fun o ho _ => .inl ?_, fun ino hi => .inl ?_, by omega⟩
  · rw [hn, if_neg]
    rintro rfl
    exact hp ho
  · rw [hd]
    exact congrArg FileData.bytes (if_neg hi.ne)

theorem confined_of_unlink (h : fs.unlink path = .ok fs')
    (hp : path ∈ be ∨ path ∉ n) : Confined n be ab i fs fs' := by
  obtain ⟨-, -, hr⟩ := FileSystem.unlink_eq_ok h
  refine .of_node hr.data hr.fresh fun o ho ha => .inl ?_
  rw [hr.node, if_neg]
  rintro rfl
  rcases hp with hb | hu
  · exact ha o hb prefix_rfl
  · exact hu ho

/-- What a staged write is for: its request, and a staging file that no call names. -/
structure StagedWrite.Of (names : List Path) (requests : List RequestedWrite)
    (staged : StagedWrite) : Prop where
  request : ∃ request ∈ requests, staged.path = request.1.path ∧
    staged.precondition = request.1.precondition
  destination : staged.destination = staged.path.parts
  temporary : staged.temporary ∉ names

variable {request req : RequestedWrite} {rs : List RequestedWrite}

theorem stageWrite_of
    {st : StagedWrite} (hmem : req ∈ rs)
    (h : (stageWrite host n req).run fs = .ok st fs') :
    st.Of n rs := by
  obtain ⟨_, hpl, h⟩ := inspect_bind_eq_ok.1 h
  obtain ⟨_, -, h⟩ := perform_bind_eq_ok.1 h
  obtain ⟨_, ht, h⟩ := inspect_bind_eq_ok.1 h
  obtain ⟨_, -, h⟩ := inspect_bind_eq_ok.1 h
  obtain ⟨_, -, h⟩ := perform_bind_eq_ok.1 h
  obtain ⟨⟨⟩, _, -, h⟩ := bind_eq_ok.1 h
  cases h
  obtain ⟨hpa, hp, hd, -⟩ := planWrite_eq_ok hpl
  cases ht
  exact ⟨⟨req, hmem, hpa, hp⟩, by rw [hd, hpa], host.uuid_avoids _ _ _⟩

theorem stageWrite_confined
    (hn : req.1.path.parts.dropLast ∈ ab) :
    Confined n be ab i fs (last ((stageWrite host n req).run fs)) := by
  refine last_inspect_bind fun plan hp => ?_
  obtain ⟨-, -, hd, -⟩ := planWrite_eq_ok hp
  refine last_bind (last_perform fun made hm =>
    confined_of_mkdirAll hm (hd ▸ hn)) fun _ mid _ => ?_
  refine last_inspect_bind fun t ht => ?_
  have hu : t ∉ n := by
    cases ht
    exact host.uuid_avoids _ _ _
  refine last_inspect_bind fun ino _ => ?_
  refine last_bind (last_perform fun file hf =>
    confined_of_createFile hf hu) fun _ file _ => ?_
  exact last_bind (applyWriteOptions_confined (.inr (.inl hu))) fun _ done _ => .refl done

variable {staged st : List StagedWrite} {seen : List LogicalPath} {pe : List RequestedWrite}

theorem stageWrites_of (hmem : pe ⊆ rs)
    (h : (stageWrites host n seen pe).run fs = .ok st fs') :
    ∀ w ∈ st, w.Of n rs := by
  induction pe generalizing seen st fs with
  | nil =>
    cases h
    exact (nofun)
  | cons _ _ ih =>
    rw [stageWrites] at h
    split_ifs at h with hs
    · cases h
    · obtain ⟨_, _, hf, h⟩ := bind_eq_ok.1 h
      obtain ⟨_, _, hl, h⟩ := bind_eq_ok.1 h
      cases h
      exact List.forall_mem_cons.2 ⟨stageWrite_of (hmem mem_cons_self) hf,
        ih (fun _ ho => hmem (mem_cons_of_mem _ ho)) hl⟩

theorem stageWrites_confined
    (hn : ∀ req ∈ pe, req.1.path.parts.dropLast ∈ ab) :
    Confined n be ab i fs (last ((stageWrites host n seen pe).run fs)) := by
  induction pe generalizing seen fs with
  | nil => exact .refl fs
  | cons req _ ih =>
    rw [stageWrites]
    split_ifs
    · exact .refl fs
    · refine last_bind (stageWrite_confined (hn req mem_cons_self)) fun _ mid _ => ?_
      exact last_bind
        (ih fun o ho => hn o (mem_cons_of_mem _ ho))
        fun _ done _ => .refl done

theorem discardStaged_confined
    (h : ∀ w ∈ st, w.temporary ∉ n) :
    Confined n be ab i fs (last ((discardStaged st).run fs)) := by
  induction st generalizing fs with
  | nil => exact .refl fs
  | cons w _ ih =>
    refine last_bind (last_attempt fun next hn =>
      confined_of_unlink hn (.inr (h w mem_cons_self))) fun _ mid _ => ?_
    exact ih fun o ho => h o (mem_cons_of_mem _ ho)

/-- What a checked call is for. -/
def Prepared.For (names : List Path) (call : Call) : Prepared → Prop
  | .writes staged => staged ≠ [] ∧ (staged.map fun write => write.path).Nodup ∧
    ∀ write ∈ staged, write.Of names call.requests
  | .append request destination _ _ =>
    call = .appendFromLocalFile request ∧ destination = request.path.parts
  | .createHardLink source destination => call = .createHardLink source destination
  | .rename source target => call = .rename source target
  | .deleteFile path precondition => call = .deleteFile path precondition

/-- Everything a checked call has found to hold holds. -/
def Prepared.Holds (host : Host) (fs : FileSystem) (prepared : Prepared) : Prop :=
  ∀ condition ∈ prepared.conditions, assertPrecondition host fs condition.1 condition.2 = .ok ()

theorem stageWrites_paths {a : List Path}
    (h : (stageWrites host a seen pe).run fs = .ok st fs') :
    (st.map fun w => w.path) = pe.map fun req => req.1.path := by
  induction pe generalizing seen st fs with
  | nil =>
    cases h
    rfl
  | cons _ _ ih =>
    rw [stageWrites] at h
    split_ifs at h with hs
    · cases h
    · obtain ⟨_, _, hf, h⟩ := bind_eq_ok.1 h
      obtain ⟨_, _, hl, h⟩ := bind_eq_ok.1 h
      cases h
      obtain ⟨hp, -⟩ := planWrite_eq_ok (stageWrite_eq_ok hf).1
      exact congrArg₂ List.cons hp (ih hl)

theorem assertPreconditions_eq_ok :
    assertPreconditions host fs st = .ok () ↔
      ∀ w ∈ st, assertPrecondition host fs w.path w.precondition = .ok () := by
  induction st with
  | nil => simp [assertPreconditions]
  | cons _ _ ih =>
    rw [assertPreconditions, Fold.bind_eq_ok, forall_mem_cons, ← ih]
    constructor
    · rintro ⟨⟨⟩, hf, hr⟩
      exact ⟨hf, hr⟩
    · rintro ⟨hf, hr⟩
      exact ⟨(), hf, hr⟩

theorem prepareWrites_confined
    (hn : ∀ req ∈ rs, req.1.path.parts.dropLast ∈ ab) :
    Confined n be ab i fs (last ((prepareWrites host (fun _ => n) rs).run fs)) := by
  refine last_inspect_bind fun ⟨pe, r⟩ hp => ?_
  have hs := (partitioned_of_eq_ok hp).1.sublist.subset
  refine last_bind (completeExactWriteReplays_confined r) fun _ mid _ => ?_
  refine last_bind
    (stageWrites_confined fun req hr => hn req (hs hr))
    fun st mid' hst => ?_
  refine last_inspect_bind fun c _ => ?_
  cases c with
  | error =>
    exact last_bind (discardStaged_confined fun w hw =>
      (stageWrites_of hs hst w hw).temporary) fun _ done _ => .refl done
  | ok => exact .refl mid'

variable {pr : Prepared}

theorem prepareWrites_eq_some
    (h : (prepareWrites host (fun _ => n) rs).run fs = .ok (some pr) fs') :
    ∃ st, pr = .writes st ∧ st ≠ [] ∧
      (st.map fun w => w.path).Nodup ∧
      (∀ w ∈ st, w.Of n rs) ∧ pr.Holds host fs' := by
  obtain ⟨⟨_, _⟩, hpa, h⟩ := inspect_bind_eq_ok.1 h
  obtain ⟨-, _, -, h⟩ := bind_eq_ok.1 h
  obtain ⟨st, mid', hs, h⟩ := bind_eq_ok.1 h
  obtain ⟨_, hch, h⟩ := inspect_bind_eq_ok.1 h
  cases hch
  have hp := (partitioned_of_eq_ok hpa).1
  cases hh : assertPreconditions host mid' st with
  | error =>
    rw [hh] at h
    obtain ⟨_, _, -, h⟩ := bind_eq_ok.1 h
    cases h
  | ok =>
    rw [hh] at h
    by_cases he : st = []
    · simp [he] at h
    · rw [if_neg he] at h
      cases h
      refine ⟨st, rfl, he, ?_, stageWrites_of hp.sublist.subset hs, ?_⟩
      · rw [stageWrites_paths hs]
        exact hp.nodup.sublist (hp.sublist.map _)
      · intro c hc
        obtain ⟨w, hw, rfl⟩ := List.mem_map.1 hc
        exact assertPreconditions_eq_ok.1 hh w hw

variable {ino : Nat}

/-- An append that may go on extends the base it names. -/
theorem assertPrecondition_of_append {req : AppendRequest} {bh : String}
    (hb : appendBaseFingerprint req.path req.precondition = .ok bh)
    (hd : ".." ∉ req.path)
    (hc : assertNoSymlinkAncestor fs req.path.parts = .ok ())
    (hid : assertExpectedFileId host fs req.path req.precondition = .ok ())
    (h : checkAppend host fs req req.path.parts bh = .ok (.inl ino)) :
    assertPrecondition host fs req.path (some req.precondition) = .ok () := by
  have hp : req.precondition.effectivePredicate =
      some (.contentFingerprint bh) := by
    unfold appendBaseFingerprint at hb
    split at hb
    · rename_i f heq
      cases hb
      exact heq
    · cases hb
  unfold checkAppend at h
  simp only at h
  split_ifs at h
  split at h
  · rename_i fo hfo
    split_ifs at h with hl _ _ hh
    · cases h
    · cases h
    · have hf : fingerprintOf host fs req.path.parts = .ok bh := by
        refine Fold.bind_eq_ok.2 ⟨(), hc, ?_⟩
        rw [hfo]
        exact congrArg Except.ok (not_not.1 hh)
      have ha : bh ≠ "absent" := not_not.1 hh ▸ host.hash_ne_absent _
      refine Fold.bind_eq_ok.2 ⟨(), hid, ?_⟩
      rw [hp]
      refine Fold.bind_eq_ok.2 ⟨.contentFingerprint bh, Fold.bind_eq_ok.2
        ⟨_, absPath_eq_ok.2 ⟨hd, rfl⟩, Fold.bind_eq_ok.2 ⟨_, hf, ?_⟩⟩, if_pos rfl⟩
      rw [if_neg ha]
      rfl
  · cases h
  · cases h
  · cases h

theorem prepareAppend_confined {req : AppendRequest} :
    Confined n be ab i fs (last ((prepareAppend host req).run fs)) := by
  refine last_inspect_bind fun bh _ => ?_
  refine last_inspect_bind fun abs _ => ?_
  refine last_inspect_bind fun _ _ => ?_
  refine last_inspect_bind fun _ _ => ?_
  refine last_inspect_bind fun f _ => ?_
  cases f with
  | inr => exact last_bind (completeExactWriteReplays_confined _) fun _ mid _ => .refl mid
  | inl => exact last_inspect_bind fun _ _ => .refl fs

theorem prepareAppend_eq_some {req : AppendRequest}
    (h : (prepareAppend host req).run fs = .ok (some pr) fs') :
    fs' = fs ∧ ∃ ino pm,
      pr = .append req req.path.parts ino pm ∧
      pr.Holds host fs := by
  obtain ⟨_, hb, h⟩ := inspect_bind_eq_ok.1 h
  obtain ⟨hd, h⟩ := absPath_bind_eq_ok h
  obtain ⟨⟨⟩, hcl, h⟩ := inspect_bind_eq_ok.1 h
  obtain ⟨⟨⟩, hid, h⟩ := inspect_bind_eq_ok.1 h
  obtain ⟨f, hf, h⟩ := inspect_bind_eq_ok.1 h
  cases f with
  | inr =>
    obtain ⟨_, _, -, h⟩ := bind_eq_ok.1 h
    cases h
  | inl ino =>
    obtain ⟨pm, -, h⟩ := inspect_bind_eq_ok.1 h
    cases h
    refine ⟨rfl, ino, pm, rfl, fun c hc => ?_⟩
    obtain rfl := List.mem_singleton.1 hc
    exact assertPrecondition_of_append hb hd hcl hid hf

theorem prepareDelete_last {path : LogicalPath} {p : Option WritePrecondition} :
    last ((prepareDelete host path p).run fs) = fs := by
  refine Eq.symm (last_inspect_bind fun abs _ => last_inspect_bind fun m _ => ?_)
  cases m with
  | none => exact last_inspect_bind fun _ _ => last_inspect_bind fun _ _ => rfl
  | some =>
    refine last_inspect_bind fun _ _ => ?_
    split
    · rfl
    · rfl

theorem prepareDelete_eq_some {path : LogicalPath} {p : Option WritePrecondition}
    (h : (prepareDelete host path p).run fs = .ok (some pr) fs') :
    fs' = fs ∧ pr = .deleteFile path p ∧ pr.Holds host fs := by
  obtain ⟨_, -, h⟩ := inspect_bind_eq_ok.1 h
  obtain ⟨m, -, h⟩ := inspect_bind_eq_ok.1 h
  cases m with
  | none =>
    obtain ⟨_, -, h⟩ := inspect_bind_eq_ok.1 h
    obtain ⟨⟨⟩, -, h⟩ := inspect_bind_eq_ok.1 h
    cases h
  | some =>
    obtain ⟨⟨⟩, hh, h⟩ := inspect_bind_eq_ok.1 h
    split at h
    · cases h
    · cases h
      refine ⟨rfl, rfl, fun c hc => ?_⟩
      obtain rfl := List.mem_singleton.1 hc
      exact hh

variable {call : Call}

theorem mem_paths_of_mem_requests
    (h : req ∈ call.requests) : req.1.path ∈ call.paths := by
  cases call with
  | write =>
    obtain rfl := List.mem_singleton.1 h
    exact mem_singleton_self _
  | writeManyAtomic =>
    obtain ⟨write, hw, rfl⟩ := List.mem_map.1 h
    exact mem_map_of_mem hw
  | _ => cases h

theorem mem_conditions_of_mem_requests
    (h : req ∈ call.requests) : (req.1.path, req.1.precondition) ∈ call.conditions := by
  cases call with
  | write =>
    obtain rfl := List.mem_singleton.1 h
    exact mem_singleton_self _
  | writeManyAtomic =>
    obtain ⟨write, hw, rfl⟩ := List.mem_map.1 h
    exact List.mem_map.2 ⟨write, hw, rfl⟩
  | _ => cases h

def Call.directories (call : Call) : List Path := call.paths.map fun path => path.parts.dropLast

/-- **Checking a call makes directories above its paths, and staging files.** -/
theorem check_confined (call : Call) :
    Confined n be call.directories i fs (last ((check host (fun _ => n) call).run fs)) := by
  have hr : ∀ req ∈ call.requests,
      req.1.path.parts.dropLast ∈ call.directories := fun req hre =>
    List.mem_map.2 ⟨_, mem_paths_of_mem_requests hre, rfl⟩
  cases call with
  | write | writeManyAtomic => exact prepareWrites_confined hr
  | appendFromLocalFile => exact prepareAppend_confined
  | createHardLink => exact .refl fs
  | rename => exact .refl fs
  | deleteFile =>
    rw [check, prepareDelete_last]
    exact .refl fs

/-- **A call that was checked is prepared for, and its preconditions hold.** -/
theorem check_eq_some
    (h : (check host (fun _ => n) call).run fs = .ok (some pr) fs') :
    pr.For n call ∧ pr.Holds host fs' := by
  cases call with
  | write | writeManyAtomic =>
    obtain ⟨st, rfl, hne, hn, hof, hh⟩ := prepareWrites_eq_some h
    exact ⟨⟨hne, hn, hof⟩, hh⟩
  | appendFromLocalFile =>
    obtain ⟨rfl, _, _, rfl, hh⟩ := prepareAppend_eq_some h
    exact ⟨⟨rfl, rfl⟩, hh⟩
  | createHardLink | rename =>
    cases h
    exact ⟨rfl, (nofun)⟩
  | deleteFile =>
    obtain ⟨rfl, rfl, hh⟩ := prepareDelete_eq_some h
    exact ⟨rfl, hh⟩

/-! ## Installing -/

theorem confined_of_rename {s target : Path} (h : fs.rename s target = .ok fs')
    (hc : ∀ path ∈ n, ∀ f, f <+: path → f ∈ n)
    (hs : s ∈ be ∨ s ∉ n) (ht : target ∈ be) :
    Confined n be ab i fs fs' := by
  obtain ⟨_, -, -, -, ⟨-, rfl⟩ | ⟨-, -, hm⟩⟩ := FileSystem.rename_eq_ok.1 h
  · exact .refl fs'
  · refine .of_node hm.data hm.fresh fun o ho ha => .inl ?_
    rw [hm.node, if_neg (ha target ht), if_neg]
    intro hi
    rcases hs with hb | hu
    · exact ha s hb hi
    · exact hu (hc o ho s hi)

theorem confined_of_rewrite {b : Bytes} (h : i ino) :
    Confined n be ab i fs (fs.rewrite ino b) := by
  refine ⟨fun _ _ _ => .inl rfl, fun o _ => ?_, le_rfl⟩
  by_cases heq : o = ino
  · exact .inr (heq ▸ h)
  · exact .inl (congrArg FileData.bytes (if_neg heq))

theorem confined_of_link {s t : Path} (h : fs.link s t = .ok fs')
    (ht : t ∈ be) : Confined n be ab i fs fs' := by
  obtain ⟨_, hn, hd, hf⟩ := FileSystem.link_eq_ok h
  refine .of_node hd hf fun o _ ha => .inl ?_
  rw [hn, if_neg]
  rintro rfl
  exact ha o ht prefix_rfl

theorem last_eq_of_ok {α : Type} {m : VfsM α} {a : α} {P : FileSystem → Prop}
    (h : P (last (m.run fs))) (hrun : m.run fs = .ok a fs') : P fs' := by
  rw [hrun] at h
  exact h

theorem installStagedWrite_confined {st : StagedWrite}
    (hc : ∀ path ∈ n, ∀ f, f <+: path → f ∈ n)
    (hu : st.temporary ∉ n) (hb : st.destination ∈ be)
    (hi : ∀ ino, fs.node st.destination = some (.file ino) → i ino) :
    Confined n be ab i fs (last ((installStagedWrite host st).run fs)) := by
  refine last_bind ?_ fun r mid _ => ?_
  · refine last_inspect_bind fun l hl => ?_
    cases hl
    split
    · rename_i ino hin
      refine last_bind (last_perform fun next hn => ?_)
        fun _ mid _ => last_bind (last_perform
          fun next hn => confined_of_unlink hn (.inr hu)) fun _ done _ => .refl done
      cases hn
      exact confined_of_rewrite (hi ino (FileSystem.lstat_eq_ok.1 hin))
    · exact last_bind (last_perform fun next hn =>
        confined_of_rename hn hc (.inr hu) hb) fun _ done _ => .refl done
    · exact last_bind (last_perform fun next hn =>
        confined_of_rename hn hc (.inr hu) hb) fun _ done _ => .refl done
    · exact .refl fs
  · cases r with
    | false => exact .refl mid
    | true => exact applyWriteOptions_confined (.inl hb)

/-- The destinations of a batch are apart, so that one write does not change where another one
goes. -/
theorem installStaged_confined
    (hc : ∀ path ∈ n, ∀ f, f <+: path → f ∈ n)
    (hof : ∀ w ∈ st, w.temporary ∉ n ∧ w.destination ∈ n ∧ w.destination ∈ be)
    (ha : st.Pairwise fun w o => ¬ w.destination <+: o.destination)
    (hi : ∀ w ∈ st, ∀ ino, fs.node w.destination = some (.file ino) → i ino) :
    Confined n be ab i fs (last ((installStaged host st).run fs)) := by
  induction st generalizing fs with
  | nil => exact .refl fs
  | cons w _ ih =>
    obtain ⟨hu, -, hb⟩ := hof w mem_cons_self
    obtain ⟨hf, hr⟩ := List.pairwise_cons.1 ha
    refine last_bind (installStagedWrite_confined hc hu hb (hi w mem_cons_self)) fun _ mid hm => ?_
    refine ih (fun o ho => hof o (mem_cons_of_mem _ ho)) hr
      fun o ho ino hin => hi o (mem_cons_of_mem _ ho) ino ?_
    -- the other destinations name what they named before
    have hst : Confined n [w.destination] []
        (fun ino => fs.node w.destination = some (.file ino)) fs mid :=
      last_eq_of_ok (installStagedWrite_confined hc hu mem_cons_self fun _ h => h) hm
    rcases hst.node o.destination (hof o (mem_cons_of_mem _ ho)).2.1
      (by simpa using hf o ho) with hs | ⟨-, -, t, ht, -⟩
    · rw [← hs, hin]
    · cases ht

theorem installAppend_confined {req : AppendRequest} {d : Path}
    {pm : Option Nat} (hb : d ∈ be)
    (hi : ∀ ino, fs.node d = some (.file ino) → i ino) :
    Confined n be ab i fs (last ((installAppend host req d ino pm).run fs)) := by
  refine last_inspect_bind fun l hl => ?_
  cases hl
  split
  · rename_i o ho
    split_ifs
    · exact .refl fs
    · refine last_bind (last_perform fun next hn => ?_)
        fun _ mid _ => applyWriteOptions_confined (.inl hb)
      cases hn
      exact confined_of_rewrite (hi o (FileSystem.lstat_eq_ok.1 ho))
  · exact .refl fs
  · exact .refl fs
  · exact .refl fs

theorem createHardLink_confined {s d : LogicalPath} {sa da : Path}
    (hb : da ∈ be) (ha : da.dropLast ∈ ab) :
    Confined n be ab i fs (last ((createHardLinkLocked host s d sa da).run fs)) := by
  refine last_inspect_bind fun _ _ => ?_
  refine last_inspect_bind fun _ _ => ?_
  refine last_inspect_bind fun lo _ => ?_
  split
  · exact .refl fs
  · exact .refl fs
  · exact .refl fs
  · exact .refl fs
  · refine last_inspect_bind fun f _ => ?_
    split
    · split_ifs
      · exact .refl fs
      · rw [last_inspect]
        exact .refl fs
    · exact .refl fs
    · refine last_bind (last_perform fun made hm =>
        confined_of_mkdirAll hm ha) fun _ mid _ => ?_
      refine last_bind (last_perform fun l hl =>
        confined_of_link hl hb) fun _ done _ => ?_
      rw [last_inspect]
      exact .refl done

theorem renameWithMetadata_confined {s t : LogicalPath}
    (hc : ∀ path ∈ n, ∀ f, f <+: path → f ∈ n)
    (hso : s.parts ∈ be) (hta : t.parts ∈ be)
    (ha : t.parts.dropLast ∈ ab) :
    Confined n be ab i fs (last ((renameWithMetadata host s t).run fs)) := by
  refine last_inspect_bind fun sa hs => ?_
  obtain rfl := (absPath_eq_ok.1 hs).2
  refine last_inspect_bind fun _ _ => ?_
  refine last_inspect_bind fun ta ht => ?_
  obtain rfl := (absPath_eq_ok.1 ht).2
  refine last_inspect_bind fun _ _ => ?_
  refine last_inspect_bind fun p _ => ?_
  have hsy : ∀ fs, Confined n be ab i fs (last ((do
      let sourceChain ← inspect fun _ => parentChain host s.parts
      let targetChain ← inspect fun _ => parentChain host t.parts
      inspect fun fs => syncDirectoriesDeepestFirst host fs (sourceChain ++ targetChain)
      let _ ← inspect fun fs => metadataForAbs host fs t.parts : VfsM Unit).run fs)) :=
    fun fs => last_inspect_bind fun _ _ => last_inspect_bind
      fun _ _ => last_inspect_bind fun _ _ => last_inspect_bind fun _ _ => .refl fs
  split_ifs
  · refine last_bind (last_perform fun made hma =>
      confined_of_mkdirAll hma ha) fun _ mid _ => ?_
    exact last_bind (last_perform fun m hm =>
      confined_of_rename hm hc (.inl hso) hta) fun _ done _ => hsy done
  · exact hsy fs

theorem installDelete_confined {path : LogicalPath} (hb : path.parts ∈ be) :
    Confined n be ab i fs (last ((installDelete host path).run fs)) := by
  refine last_inspect_bind fun abs ha => ?_
  obtain rfl := (absPath_eq_ok.1 ha).2
  refine last_inspect_bind fun _ _ => ?_
  refine last_bind (last_perform fun next hn => ?_) fun _ mid _ => last_inspect_bind fun _ _ => ?_
  · rcases unlessMissing_eq_ok hn with hu | ⟨-, rfl⟩
    · exact confined_of_unlink hu (.inl hb)
    · exact .refl next
  · rw [last_inspect]
    exact .refl mid

/-- The writes of a call go to places apart. -/
def Call.Spread (call : Call) : Prop :=
  ∀ condition ∈ call.conditions, ∀ other ∈ call.conditions, condition.1 ≠ other.1 →
    ¬ condition.1.parts <+: other.1.parts

instance (call : Call) : Decidable call.Spread :=
  inferInstanceAs (Decidable (∀ _ ∈ _, ∀ _ ∈ _, _ → _))

/-- **Installing a call changes what lies at or below its paths, and the bytes of the files they
name.** -/
theorem install_confined (hf : pr.For n call)
    (hs : call.Spread)
    (hc : ∀ path ∈ n, ∀ f, f <+: path → f ∈ n)
    (hn : ∀ path ∈ call.paths, path.parts ∈ n) :
    Confined n (call.paths.map LogicalPath.parts) call.directories
      (fun ino => ∃ path ∈ call.paths, fs.node path.parts = some (.file ino)) fs
      (last ((install host pr).run fs)) := by
  cases pr with
  | writes st =>
    obtain ⟨-, hno, hof⟩ := hf
    have hp : ∀ write ∈ st, write.path ∈ call.paths := fun write hw => by
      obtain ⟨req, hr, heq, -⟩ := (hof write hw).request
      exact heq ▸ mem_paths_of_mem_requests hr
    refine last_bind (installStaged_confined hc
      (fun write hw => ?_) ?_ fun write hw ino hi => ?_) fun _ mid _ => ?_
    · rw [(hof write hw).destination]
      exact ⟨(hof write hw).temporary, hn _ (hp write hw), mem_map_of_mem (hp write hw)⟩
    · refine (List.pairwise_map.1 hno).imp_of_mem fun hw ho hne => ?_
      obtain ⟨req, hr, heq, -⟩ := (hof _ hw).request
      obtain ⟨_, hr', he', -⟩ := (hof _ ho).request
      rw [(hof _ hw).destination, (hof _ ho).destination, heq, he']
      exact hs _ (mem_conditions_of_mem_requests hr) _
        (mem_conditions_of_mem_requests hr') (heq ▸ he' ▸ hne)
    · rw [(hof write hw).destination] at hi
      exact ⟨write.path, hp write hw, hi⟩
    · rw [last_inspect]
      exact .refl mid
  | append req _ ino =>
    obtain ⟨rfl, rfl⟩ := hf
    exact installAppend_confined (mem_singleton_self _)
      fun ino hi => ⟨req.path, mem_singleton_self _, hi⟩
  | createHardLink s d =>
    obtain rfl := hf
    refine last_inspect_bind fun sa _ => ?_
    refine last_inspect_bind fun da ha => ?_
    obtain rfl := (absPath_eq_ok.1 ha).2
    have hmem : d ∈ (Call.createHardLink s d).paths :=
      mem_cons_of_mem _ (mem_singleton_self _)
    exact createHardLink_confined (mem_map_of_mem hmem) (List.mem_map.2 ⟨d, hmem, rfl⟩)
  | rename s t =>
    obtain rfl := hf
    have hmem : t ∈ (Call.rename s t).paths :=
      mem_cons_of_mem _ (mem_singleton_self _)
    exact renameWithMetadata_confined hc (mem_map_of_mem mem_cons_self)
      (mem_map_of_mem hmem) (List.mem_map.2 ⟨t, hmem, rfl⟩)
  | deleteFile =>
    obtain rfl := hf
    exact installDelete_confined (mem_map_of_mem mem_cons_self)

end

end Chevalier.Vfs
