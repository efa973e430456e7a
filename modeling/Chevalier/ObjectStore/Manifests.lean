import Chevalier.ObjectStore.Serial

/-!
# Manifests and packs

A transaction adds manifests under identifiers that were never in use, and leaves the slots of the
others as they are (`Transaction.Stores`). The pack of a batch that is not yet committed is known to
nobody else (`System.Packed`).

* **`System.Packed.step`**: one step keeps it so.
-/

namespace Chevalier.ObjectStore

open Vfs List

variable {co : Codec} {ix ix' : Index} {path : LogicalPath} {now : Nat} {draw : LogicalPath → Draw}
  {re : List StorageWrite} {commit : PackedCommit} {transaction tr : Transaction} {s t : System}
  {call : Nat}

/-! ## Manifests -/

def Transaction.slots : Transaction → List PackSlotRef
  | .publish _ commit => commit.files.map (·.manifest.slot)
  | .link _ _ _ _ copied => copied.toList.map (·.2.manifest.slot)
  | .unlink .. | .rename .. => []

/-- What a transaction does to the manifests: a manifest keeps its slot or is a new one, and new
rows name manifests that were drawn. -/
structure Transaction.Stores (ix ix' : Index) (draw : LogicalPath → Draw)
    (transaction : Transaction) : Prop where
  manifests : ∀ id manifest, ix'.manifests.get id = some manifest →
    (∃ old, ix.manifests.get id = some old ∧ old.slot = manifest.slot) ∨
      id ∈ transaction.newIds draw ∧ manifest.slot ∈ transaction.slots
  rows : ∀ path row, ix'.row path = some row → ∀ id ∈ row.manifest,
    (∃ other old, ix.row other = some old ∧ old.manifest = some id) ∨
      id ∈ transaction.newIds draw

theorem stores_publish (hg : ∀ file ∈ commit.files, file.Guarded)
    (hp : publishPackedFiles now draw commit ix = .ok ix') :
    (Transaction.publish re commit).Stores ix ix' draw := by
  obtain ⟨-, hpat, hfr, rfl⟩ := publishPackedFiles_eq_ok hg hp
  constructor
  · intro id m hm
    by_cases hid : id ∈ (manifestRows draw commit.files).map Prod.fst
    · obtain ⟨⟨id, a⟩, hr, rfl⟩ := List.mem_map.1 hid
      have hge := Table.get_setAll_of_mem (t := ix.manifests) hfr.1 hr
      obtain rfl : a = m := Option.some.inj (hge.symm.trans hm)
      obtain ⟨file, hf, heq⟩ := List.mem_map.1 hr
      obtain ⟨rfl, rfl⟩ := Prod.mk.inj heq
      exact .inr ⟨mem_append_right _ (List.mem_map.2 ⟨file, hf, rfl⟩),
        List.mem_map.2 ⟨file, hf, rfl⟩⟩
    · exact .inl ⟨m, (Table.get_setAll_of_notMem hid).symm.trans hm, rfl⟩
  · intro path row hr id hid
    by_cases hpa : path ∈ commit.files.map (·.logicalPath)
    · obtain ⟨file, hf, rfl⟩ := List.mem_map.1 hpa
      obtain rfl : file.committedRow draw ix = row :=
        Option.some.inj ((row_of_get (get_committedEntries hpat hf)).symm.trans hr)
      obtain rfl : (draw file.logicalPath).manifestId = id := Option.some.inj hid
      exact .inr (mem_append_right _ (List.mem_map.2 ⟨file, hf, rfl⟩))
    · refine .inl ⟨path, row, ?_, hid⟩
      rwa [Index.row, published, get_committedEntries_of_notMem hpa] at hr

variable {so d : LogicalPath}

theorem stores_link {oi fi : String}
    {c : Option (String × LinkSource)} (hi : ix.Identified)
    (hc : (Transaction.link so d oi fi c).commit now draw ix = .ok ix') :
    (Transaction.link so d oi fi c).Stores ix ix' draw := by
  cases c with
  | none =>
    cases hc
    exact ⟨fun id m h => .inl ⟨m, h, rfl⟩, fun path row h id hid =>
      .inl ⟨path, row, h, hid⟩⟩
  | some =>
    obtain ⟨-, -, hg, hma⟩ := linkFile_eq_ok hi hc
    constructor
    · intro id m hm
      rw [hma, Table.get_set] at hm
      split at hm
      · next hid =>
        cases hm
        subst hid
        exact .inr ⟨mem_singleton_self _, mem_singleton_self _⟩
      · exact .inl ⟨m, hm, rfl⟩
    · intro path row hr id hid
      rw [Index.row, hg] at hr
      split at hr
      · cases hr
        cases hid
        exact .inr (mem_singleton_self _)
      · exact .inl ⟨path, row, hr, hid⟩

theorem get_manifests_removeFile {id : String} {m : FileManifest} :
    (removeFile path ix).manifests.get id = some m ↔
      ix.manifests.get id = some m ∧ m.logicalPath ≠ path := by
  rw [removeFile, Table.get_delete, Option.filter_eq_some_iff]
  simp

theorem row_removeFile {o : LogicalPath} {row : FileRow}
    (h : (removeFile path ix).row o = some row) : ix.row o = some row := by
  have hg := get_of_row h
  rw [get_removeFile] at hg
  split at hg
  · cases hg
  · exact row_of_get hg

theorem stores_unlink {fi ecv : Option String} :
    (Transaction.unlink path fi ecv).Stores ix (unlinkFile now path ix) draw where
  manifests := by
    intro id m hm
    rw [unlinkFile, Index.manifests_foldl_updatePackReferenceCount] at hm
    exact .inl ⟨m, (get_manifests_removeFile.1 hm).1, rfl⟩
  rows := by
    intro o row hr id hid
    rw [unlinkFile, Index.row, Index.entries_foldl_updatePackReferenceCount] at hr
    exact .inl ⟨o, row, row_removeFile hr, hid⟩

/-- What a rename does to the manifests: those of the replaced file are gone, and those of the
source get the new path. -/
theorem manifests_renameFile {r : Bool} {row : FileRow}
    (hne : so ≠ d) (hr : ix.row so = some row)
    (h : renameFile now so d r ix = .ok ix') :
    ix'.manifests = (if r then removeFile d ix else ix).manifests.modify
      fun _ manifest => if manifest.logicalPath = so then
        { manifest with logicalPath := d } else manifest := by
  set cleared := if r then removeFile d ix else ix with hc
  have hs : cleared.row so = some row := by
    rw [hc]
    split
    · rw [Index.row, get_removeFile, if_neg fun h => hne h.1, ← Index.row, hr]
    · exact hr
  simp only [renameFile, ← hc, moveFile, hs] at h
  split at h
  · cases h
  · cases h
    exact Index.manifests_foldl_updatePackReferenceCount

theorem stores_rename {fi : Option String}
    {sn : Option (Option String)} {ar r : Bool}
    (hne : so ≠ d) (hso : fi ≠ none) (hs : ix.fileId so = fi)
    (hc : renameFile now so d r ix = .ok ix') :
    (Transaction.rename so d fi sn ar r).Stores ix ix' draw := by
  obtain ⟨_, rfl⟩ := Option.ne_none_iff_exists'.1 hso
  obtain ⟨m, hmo, -⟩ := exists_row_of_fileId hs
  constructor
  · intro id ma hm
    rw [manifests_renameFile hne (row_of_get hmo) hc, Table.get_modify,
      Option.map_eq_some_iff] at hm
    obtain ⟨old, hold, rfl⟩ := hm
    have hf : ix.manifests.get id = some old := by
      split at hold
      · exact (get_manifests_removeFile.1 hold).1
      · exact hold
    refine .inl ⟨old, hf, ?_⟩
    split <;> rfl
  · intro path row hr id hid
    rw [Index.row, (get_renameFile hne hmo hc).2] at hr
    split_ifs at hr
    · obtain rfl : m = row := Option.some.inj hr
      exact .inl ⟨so, m, row_of_get hmo, hid⟩
    · cases hr
    · exact .inl ⟨path, row, hr, hid⟩

theorem Transaction.stores_of_commit (hi : ix.Identified)
    (hp : tr.Planned) (hc : tr.Checked ix)
    (h : tr.commit now draw ix = .ok ix') : tr.Stores ix ix' draw := by
  cases tr with
  | publish => exact stores_publish hp h
  | link => exact stores_link hi h
  | unlink =>
    cases h
    exact stores_unlink
  | rename => exact stores_rename hp.1 hp.2 hc.1 h

/-! ## Packs in use -/

def Transaction.packKey : Transaction → Option String
  | .publish _ commit => some commit.packKey
  | .link .. | .unlink .. | .rename .. => none

/-- The transaction that a call is about to commit. -/
def Call.pending : Call → Option Transaction
  | .expanding .. | .renameRead .. => none
  | .ready transaction | .locked transaction | .checked transaction => some transaction

/-- The transaction that a call is about to commit. -/
def System.pending (s : System) (call : Nat) : Option Transaction :=
  (s.calls call).bind Call.pending

/-- What holds of the packs in every state: what is named was drawn, and a pack that is not yet
published is named by no manifest and by no other transaction. -/
structure System.Packed (s : System) : Prop where
  rows : ∀ path row, s.index.row path = some row → ∀ id ∈ row.manifest, id ∈ s.uuids
  manifests : ∀ id manifest, s.index.manifests.get id = some manifest →
    id ∈ s.uuids ∧ manifest.slot.packKey ∈ s.uuids
  slots : ∀ call transaction, s.pending call = some transaction →
    ∀ slot ∈ transaction.slots, slot.packKey ∈ s.uuids
  own : ∀ call transaction, s.pending call = some transaction → ∀ key ∈ transaction.packKey,
    key ∈ s.uuids ∧ ∀ slot ∈ transaction.slots, slot.packKey = key
  unnamed : ∀ call transaction, s.pending call = some transaction →
    ∀ key ∈ transaction.packKey, ∀ id manifest, s.index.manifests.get id = some manifest →
      manifest.slot.packKey ≠ key
  apart : ∀ call transaction, s.pending call = some transaction → ∀ key ∈ transaction.packKey,
    ∀ other transaction', s.pending other = some transaction' → other ≠ call →
      ∀ slot ∈ transaction'.slots, slot.packKey ≠ key

/-- Where the slots of a transaction come from: it has them already, they are in a new pack, or they
are named by manifests. -/
inductive Origin (s t : System) (call : Nat) (transaction : Transaction) : Prop
  | held (old : Transaction) (hold : s.pending call = some old)
      (hkey : transaction.packKey = old.packKey) (hslots : transaction.slots = old.slots)
  | drawn (key : String) (hnew : key ∉ s.uuids) (hdrawn : key ∈ t.uuids)
      (hkey : transaction.packKey = some key)
      (hslots : ∀ slot ∈ transaction.slots, slot.packKey = key)
  | named (hkey : transaction.packKey = none)
      (hslots : ∀ slot ∈ transaction.slots, ∃ id manifest,
        s.index.manifests.get id = some manifest ∧ manifest.slot = slot)

/-- A call that goes on keeps the packs apart. -/
theorem System.Packed.step_call (h : s.Packed) {p : Option Call}
    (hc : t.calls = Function.update s.calls call p) (hi : t.index = s.index)
    (hu : s.uuids ⊆ t.uuids)
    (hor : ∀ tr ∈ p.bind Call.pending, Origin s t call tr) :
    t.Packed := by
  have ht : ∀ o tr, t.pending o = some tr →
      o ≠ call ∧ s.pending o = some tr ∨ o = call ∧ Origin s t call tr := by
    intro o tr ho
    by_cases heq : o = call
    · subst heq
      rw [System.pending, hc, Function.update_self] at ho
      exact .inr ⟨rfl, hor tr ho⟩
    · rw [System.pending, hc, Function.update_of_ne heq] at ho
      exact .inl ⟨heq, ho⟩
  have hsl : ∀ o tr, t.pending o = some tr →
      ∀ slot ∈ tr.slots, slot.packKey ∈ t.uuids := by
    intro o tr ho slot hs
    rcases ht o tr ho with ⟨-, hold⟩ | ⟨-, hor⟩
    · exact hu (h.slots o tr hold slot hs)
    · cases hor with
      | held old hold _ hsl => exact hu (h.slots call old hold slot (hsl ▸ hs))
      | drawn _ _ hd _ hsl => exact hsl slot hs ▸ hd
      | named _ hsl =>
        obtain ⟨id, m, hg, rfl⟩ := hsl slot hs
        exact hu (h.manifests id m hg).2
  refine ⟨?_, ?_, hsl, ?_, ?_, ?_⟩
  · intro path row hr id hid
    exact hu (h.rows path row (hi ▸ hr) id hid)
  · intro id m hm
    obtain ⟨hid, hk⟩ := h.manifests id m (hi ▸ hm)
    exact ⟨hu hid, hu hk⟩
  · intro o tr ho key hk
    rcases ht o tr ho with ⟨-, hold⟩ | ⟨-, hor⟩
    · obtain ⟨hmem, how⟩ := h.own o tr hold key hk
      exact ⟨hu hmem, how⟩
    · cases hor with
      | held old hold hk' hs' =>
        obtain ⟨hmem, how⟩ := h.own call old hold key (hk' ▸ hk)
        exact ⟨hu hmem, hs' ▸ how⟩
      | drawn key' _ hd hk' hs' =>
        obtain rfl : key' = key := Option.some.inj (hk'.symm.trans hk)
        exact ⟨hd, hs'⟩
      | named hk' =>
        rw [hk'] at hk
        cases hk
  · intro o tr ho key hk id m hm
    rw [hi] at hm
    rcases ht o tr ho with ⟨-, hold⟩ | ⟨-, hor⟩
    · exact h.unnamed o tr hold key hk id m hm
    · cases hor with
      | held old hold hk' => exact h.unnamed call old hold key (hk' ▸ hk) id m hm
      | drawn key' hn _ hk' =>
        obtain rfl : key' = key := Option.some.inj (hk'.symm.trans hk)
        exact fun heq => hn (heq ▸ (h.manifests id m hm).2)
      | named hk' =>
        rw [hk'] at hk
        cases hk
  · intro first tr hf key hk se t' hse hne slot hs
    rcases ht first tr hf with ⟨hfi, hf⟩ | ⟨rfl, hf⟩ <;>
      rcases ht se t' hse with ⟨_, hse⟩ | ⟨rfl, hse⟩
    · exact h.apart first tr hf key hk se t' hse hne slot hs
    · -- the slots of the call that goes on, and the pack of another one
      cases hse with
      | held old hold _ hs' => exact h.apart first tr hf key hk se old hold hne slot (hs' ▸ hs)
      | drawn _ hn _ _ hs' =>
        rw [hs' slot hs]
        exact fun heq => hn (heq ▸ (h.own first tr hf key hk).1)
      | named _ hs' =>
        obtain ⟨id, m, hg, rfl⟩ := hs' slot hs
        exact h.unnamed first tr hf key hk id m hg
    · -- the pack of the call that goes on, and the slots of another one
      cases hf with
      | held old hold hk' => exact h.apart first old hold key (hk' ▸ hk) se t' hse hne slot hs
      | drawn key' hn _ hk' =>
        obtain rfl : key' = key := Option.some.inj (hk'.symm.trans hk)
        exact fun heq => hn (heq ▸ h.slots se t' hse slot hs)
      | named hk' =>
        rw [hk'] at hk
        cases hk
    · exact absurd rfl hne

theorem System.Packed.set (h : s.Packed) {p : Call}
    (ho : ∀ tr ∈ p.pending, Origin s (s.set call p) call tr) : (s.set call p).Packed :=
  h.step_call rfl rfl (List.Subset.refl _) ho

/-- A call that names no pack goes on. -/
theorem System.Packed.set_plain (h : s.Packed) {tr : Transaction}
    (hk : tr.packKey = none) (hs : tr.slots = []) :
    (s.set call (.ready tr)).Packed := by
  refine h.set fun next hn => ?_
  obtain rfl : tr = next := Option.some.inj hn
  exact .named hk fun slot hsl => by simp [hs] at hsl

theorem System.Packed.finish (h : s.Packed) : (s.finish call).Packed :=
  h.step_call rfl rfl (List.Subset.refl _) nofun

/-- The call commits its transaction. -/
theorem System.Packed.committed (h : s.Packed) {index : Index} {ids : List String}
    (ht : s.pending call = some tr)
    (hi : ids = tr.newIds draw ++ s.uuids)
    (hst : tr.Stores s.index index draw) :
    System.Packed { (s.finish call) with index := index, uuids := ids } := by
  subst hi
  have ho : ∀ o t', (s.finish call).pending o = some t' →
      o ≠ call ∧ s.pending o = some t' := by
    intro o t' ho
    by_cases heq : o = call
    · subst heq
      simp [System.pending, System.finish] at ho
    · have hc : (s.finish call).calls o = s.calls o := Function.update_of_ne heq _ _
      exact ⟨heq, by rwa [System.pending, hc] at ho⟩
  refine ⟨?_, ?_, ?_, ?_, ?_, ?_⟩
  · intro path row hr id hid
    rcases hst.rows path row hr id hid with ⟨o, old, hold, hm⟩ | hnew
    · exact mem_append_right _ (h.rows o old hold id hm)
    · exact mem_append_left _ hnew
  · intro id m hm
    rcases hst.manifests id m hm with ⟨old, hold, heq⟩ | ⟨hid, hs⟩
    · obtain ⟨hid, hk⟩ := h.manifests id old hold
      exact ⟨mem_append_right _ hid, mem_append_right _ (heq ▸ hk)⟩
    · exact ⟨mem_append_left _ hid, mem_append_right _ (h.slots call tr ht _ hs)⟩
  · intro o t' hn slot hs
    exact mem_append_right _ (h.slots o t' (ho _ _ hn).2 slot hs)
  · intro o t' hn key hk
    obtain ⟨hmem, how⟩ := h.own o t' (ho _ _ hn).2 key hk
    exact ⟨mem_append_right _ hmem, how⟩
  · intro o t' hn key hk id m hm
    obtain ⟨hne, hn⟩ := ho _ _ hn
    rcases hst.manifests id m hm with ⟨old, hold, heq⟩ | ⟨-, hs⟩
    · exact heq ▸ h.unnamed o t' hn key hk id old hold
    · exact h.apart o t' hn key hk call tr ht hne.symm _ hs
  · intro first t' hf key hk se transaction'' hse
    exact h.apart first t' (ho _ _ hf).2 key hk se transaction'' (ho _ _ hse).2

theorem System.Packed.directory (h : s.Packed) (hs : DirectoryStep s.index ix') :
    System.Packed { s with index := ix' } := by
  refine ⟨?_, ?_, h.slots, h.own, ?_, h.apart⟩
  · intro o row hr
    exact h.rows o row ((hs.1 o).symm.trans hr)
  · intro id m hm
    exact h.manifests id m (hs.2 ▸ hm)
  · intro call tr ht key hk id m hm
    exact h.unnamed call tr ht key hk id m (hs.2 ▸ hm)

/-- What a batch has packed is in its pack. -/
theorem packKey_of_prepareCommit {pk : String} {wr : List StorageWrite}
    (hne : wr ≠ []) (h : prepareCommit co pk ix.view wr = .ok commit) :
    commit.packKey = pk ∧ ∀ file ∈ commit.files, file.manifest.slot.packKey = pk := by
  obtain ⟨_, hb⟩ := built_of_prepareCommit hne h
  obtain ⟨c', _, hp, hk, hfi, hd⟩ :=
    prepareCommit_of_built pk hne hb
  obtain rfl : c' = commit := Except.ok.inj (hp.symm.trans h)
  refine ⟨hk, fun file hf => ?_⟩
  rw [hfi, mem_map] at hf
  obtain ⟨w, hw, rfl⟩ := hf
  exact (hd w hw).1

/-- What a link copies is named by the manifest of its source. -/
theorem manifest_of_linkSource {oi fi : String} {c : LinkSource}
    (h : linkSource so oi fi ix = .ok c) :
    ix.manifest so = some c.manifest := by
  simp only [linkSource] at h
  split at h
  · cases h
  · cases h
  · split at h
    · cases h
    · split at h
      · cases h
      · next hm =>
        cases h
        exact hm

/-- A second look keeps the packs of a transaction, or copies a slot that is named. -/
theorem origin_of_check {ch : Transaction} (ht : s.pending call = some tr)
    (h : tr.check s.index = some ch) : Origin s t call ch := by
  cases tr with
  | publish =>
    simp only [Transaction.check] at h
    split at h
    · cases h
      exact .held _ ht rfl rfl
    · cases h
  | link _ _ _ _ c =>
    simp only [Transaction.check] at h
    split at h
    · next mi c hid hs =>
      cases h
      refine .named rfl fun slot hsl => ?_
      obtain rfl : c.manifest.slot = slot := (List.mem_singleton.1 hsl).symm
      obtain ⟨id, -, hg⟩ := Option.bind_eq_some_iff.1 (manifest_of_linkSource hs)
      exact ⟨id, c.manifest, hg, rfl⟩
    · cases h
  | unlink =>
    simp only [Transaction.check] at h
    split at h
    · cases h
    · split at h
      · cases h
      · cases h
        exact .named rfl fun _ hs => absurd hs not_mem_nil
  | rename =>
    simp only [Transaction.check] at h
    split at h
    · cases h
    · cases h
      exact .named rfl fun _ hs => absurd hs not_mem_nil

/-- **One step keeps the packs apart.** -/
theorem System.Packed.step {a : Action} (h : s.Packed) (hs : s.Sound)
    (he : exec co a s = some t) : t.Packed := by
  cases moves_of_exec he with
  | write | listAliases | rename => exact h.set nofun
  | @prepare _ _ re _ writes commit hp hnew hpr =>
    obtain ⟨hne, hr⟩ := hs.calls _ _ hp
    have hw : writes ≠ [] := fun hnil => hne (List.subset_nil.1 (hnil ▸ hr))
    obtain ⟨rfl, hsl⟩ := packKey_of_prepareCommit hw hpr
    refine h.step_call rfl rfl (subset_cons_self _ _) fun tr hn => ?_
    obtain rfl : .publish re commit = tr := Option.some.inj hn
    refine .drawn commit.packKey hnew mem_cons_self rfl fun slot hslo => ?_
    obtain ⟨file, hf, rfl⟩ := List.mem_map.1 hslo
    exact hsl file hf
  | link | unlink | snapshot => exact h.set_plain rfl rfl
  | lock hp =>
    refine h.step_call rfl rfl (List.Subset.refl _) fun next hn => ?_
    cases hn
    exact .held _ (by rw [System.pending, hp]; rfl) rfl rfl
  | check hp hch =>
    refine h.set fun next hn => ?_
    cases hn
    exact origin_of_check (by rw [System.pending, hp]; rfl) hch
  | commit hp _ hco =>
    obtain ⟨hpl, -, hc⟩ := hs.calls _ _ hp
    exact h.committed (by rw [System.pending, hp]; rfl) rfl
      (Transaction.stores_of_commit hs.identified hpl hc hco)
  | finish => exact h.finish
  | directory hst => exact h.directory hst

end Chevalier.ObjectStore
