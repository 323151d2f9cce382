import Mathlib.Data.List.Pairwise
import SqlDialect.Proofs.Batch.Layer
import SqlDialect.Proofs.FileTree.Search

/-!
# The order in which the jobs of a batch are run

The jobs of a batch may be run in any order.  It makes no difference as long as no job writes to what
another one reads, or where another one needs a directory.

* `Batch.Job.Apart` : neither of two jobs gets in the way of the other one.
* `Batch.Laid` : a tree in which some of the jobs have been run; `Batch.Laid.run` : a job that is
  apart from all of them has the same outcome there as in the tree without them.
* `Batch.runInOrder_eq` : the outcomes and the tree do not depend on the order.
* `Batch.runInOrder_crossing` : they do if one document is to be written where the directory of
  another one is to be.
-/

namespace SqlDialect.Batch

open FileTree (Place Layer Covers made)

/-! ### Jobs that are apart -/

namespace Job

/-- Job `a` writes neither to what `b` reads, nor where `b` needs a directory. -/
def Spares (a b : Job) : Prop :=
  a.destination.place ≠ b.source.place ∧ a.destination.place ≠ b.destination.place.dropLast

/-- Neither of the jobs gets in the way of the other one. -/
def Apart (a b : Job) : Prop := a.Spares b ∧ b.Spares a

instance (a b : Job) : Decidable (a.Apart b) :=
  inferInstanceAs (Decidable ((_ ∧ _) ∧ (_ ∧ _)))

/-- If both jobs are run, they are apart and have different destinations. -/
def Independent (a b : Job) : Prop :=
  a.claimedBy = none → b.claimedBy = none →
    a.Apart b ∧ a.destination.place ≠ b.destination.place

theorem Independent.symm {a b : Job} (h : a.Independent b) : b.Independent a := fun hb ha =>
  ⟨(h ha hb).1.symm, (h ha hb).2.symm⟩

/-- The destination of the job is one name or two behind the root. -/
def Below (root : List Component) (job : Job) : Prop :=
  ∃ (directory : Option (List Char)) (name : List Char),
    job.destination.components = root ++ (directory.toList ++ [name]).map .name

variable {root : List Component} {a b job : Job} {blocked : Place → Bool} {place : Place}

theorem foldl_follow_names (place : Place) (names : List (List Char)) :
    (names.map Component.name).foldl Component.follow place = place ++ names := by
  induction names generalizing place with
  | nil => exact (List.append_nil place).symm
  | cons chars rest ih =>
    rw [List.map_cons, List.foldl_cons, ih, Component.follow, List.append_assoc]
    rfl

theorem Below.hasEntry (h : job.Below root) : job.HasEntry := by
  obtain ⟨directory, name, hcomponents⟩ := h
  refine ⟨root ++ directory.toList.map .name, name, ?_⟩
  rw [hcomponents, List.map_append, List.append_assoc]
  rfl

theorem Below.above (h : job.Below root) :
    job.destination.components.dropLast = root ∨
      ∃ chars, job.destination.components.dropLast = root ++ [.name chars] := by
  obtain ⟨directory, name, hcomponents⟩ := h
  rw [hcomponents, List.map_append, List.map_singleton, ← List.append_assoc, List.dropLast_concat]
  cases directory with
  | none => exact .inl (List.append_nil root)
  | some chars => exact .inr ⟨chars, rfl⟩

/-- The directories of the root are among those above a destination. -/
theorem Below.mem_made_of_root (h : job.Below root) (hmem : place ∈ made blocked root) :
    place ∈ made blocked job.destination.components.dropLast := by
  rcases h.above with habove | ⟨chars, habove⟩
  · rwa [habove]
  · rw [habove]
    exact FileTree.made_subset_concat blocked root _ place hmem

/-- There is at most one directory between the root and a destination. -/
theorem Below.mem_made (h : job.Below root)
    (hmem : place ∈ made blocked job.destination.components.dropLast) :
    place ∈ made blocked root ∨ place = job.destination.place.dropLast := by
  rcases h.above with habove | ⟨chars, habove⟩
  · rw [habove] at hmem
    exact .inl hmem
  · rw [habove] at hmem
    refine (FileTree.mem_made_of_concat hmem).imp id fun hplace => ?_
    obtain ⟨_, name, hcomponents⟩ := h.hasEntry
    rw [hplace, ← habove, Path.place, hcomponents, List.dropLast_concat, List.foldl_concat,
      Component.follow, List.dropLast_concat]

/-- Different destinations are at different places. -/
theorem Below.place_ne (ha : a.Below root) (hb : b.Below root)
    (h : a.destination.same b.destination = false) :
    a.destination.place ≠ b.destination.place := by
  obtain ⟨directory, name, hcomponents⟩ := ha
  obtain ⟨directory', name', hcomponents'⟩ := hb
  intro heq
  rw [Path.place, Path.place, hcomponents, hcomponents', List.foldl_append, List.foldl_append,
    foldl_follow_names, foldl_follow_names, List.append_cancel_left_eq] at heq
  rw [Path.same, hcomponents, hcomponents', heq, beq_self_eq_true] at h
  cases h

variable {c : Converter} {tree : FileTree} {x y : FileTree.Entry}

/-- A job writes its file where no job that it spares has a directory. -/
theorem not_mem_made_of_spares (ha : a.Below root) (hb : b.Below root) (hspares : a.Spares b)
    (hmade : a.destination.place ∉ made blocked a.destination.components.dropLast) :
    a.destination.place ∉ made blocked b.destination.components.dropLast := by
  intro hmem
  rcases hb.mem_made hmem with hroot | hlast
  · exact hmade (ha.mem_made_of_root hroot)
  · exact hspares.2 hlast

/-- What independent jobs lay over a tree does not differ where both lay something. -/
theorem layers_agree (ha : a.Below root) (hb : b.Below root) (h : a.Independent b)
    (hx : a.layer c tree place = some x) (hy : b.layer c tree place = some y) : x = y := by
  obtain ⟨haclaim, hx⟩ := layer_cases hx
  obtain ⟨hbclaim, hy⟩ := layer_cases hy
  obtain ⟨⟨hab, hba⟩, hne⟩ := h haclaim hbclaim
  rcases hx with ⟨octets, rfl, hplace, -, hmade⟩ | ⟨rfl, hmem⟩
  · subst hplace
    rcases hy with ⟨octets', rfl, hplace', -, -⟩ | ⟨rfl, hmem'⟩
    · exact absurd hplace' hne
    · exact absurd hmem' (not_mem_made_of_spares ha hb hab hmade)
  · rcases hy with ⟨octets', rfl, hplace', -, hmade'⟩ | ⟨rfl, -⟩
    · subst hplace'
      exact absurd hmem (not_mem_made_of_spares hb ha hba hmade')
    · rfl

end Job

/-! ### Trees in which jobs have been run -/

/-- What some jobs lay over a tree. -/
def layers (c : Converter) (tree : FileTree) (jobs : List Job) : Layer := fun place =>
  jobs.findSome? fun job => job.layer c tree place

theorem layers_cons (c : Converter) (tree : FileTree) (job : Job) (jobs : List Job)
    (place : Place) : layers c tree (job :: jobs) place =
      (job.layer c tree place).or (layers c tree jobs place) := by
  rw [layers, List.findSome?_cons]
  cases job.layer c tree place <;> rfl

/-- The order of jobs makes no difference to what they lay over a tree if they are independent. -/
theorem layers_perm {c : Converter} {tree : FileTree} {jobs jobs' : List Job}
    {root : List Component} (hperm : jobs.Perm jobs') (hbelow : ∀ job ∈ jobs, job.Below root)
    (h : jobs.Pairwise Job.Independent) : layers c tree jobs = layers c tree jobs' := by
  funext place
  -- jobs that lay something at the place lay the same
  have hagree : ∀ a ∈ jobs, ∀ b ∈ jobs, ∀ x y, a.layer c tree place = some x →
      b.layer c tree place = some y → x = y := by
    intro a ha b hb x y hx hy
    by_cases heq : a = b
    · subst heq
      exact Option.some.inj (hx.symm.trans hy)
    · have : Std.Symm Job.Independent := ⟨fun _ _ => Job.Independent.symm⟩
      exact Job.layers_agree (hbelow a ha) (hbelow b hb) (h.forall ha hb heq) hx hy
  cases hfind : layers c tree jobs place with
  | none =>
    rw [layers, List.findSome?_eq_none_iff] at hfind
    exact (List.findSome?_eq_none_iff.2 fun job hjob => hfind job (hperm.mem_iff.2 hjob)).symm
  | some x =>
    obtain ⟨a, ha, hx⟩ := List.exists_of_findSome?_eq_some hfind
    cases hfind' : layers c tree jobs' place with
    | none =>
      rw [layers, List.findSome?_eq_none_iff] at hfind'
      rw [hfind' a (hperm.mem_iff.1 ha)] at hx
      cases hx
    | some y =>
      obtain ⟨b, hb, hy⟩ := List.exists_of_findSome?_eq_some hfind'
      rw [hagree a ha b (hperm.mem_iff.2 hb) x y hx hy]

/-- The second tree is the first one with what the jobs lay over it. -/
def Laid (c : Converter) (tree : FileTree) (jobs : List Job) (tree' : FileTree) : Prop :=
  Covers (layers c tree jobs) tree tree'

namespace Laid

variable {c : Converter} {tree tree' : FileTree} {jobs : List Job} {place : Place} {job : Job}
  {root : List Component}

theorem cases (h : Laid c tree jobs tree') (place : Place) :
    tree'.entry? place = tree.entry? place ∨
      ∃ other ∈ jobs, ∃ entry, other.layer c tree place = some entry ∧
        tree'.entry? place = some entry := by
  have hentry := h place
  cases hfind : layers c tree jobs place with
  | none => exact .inl (by rw [hentry, hfind, Option.none_or])
  | some entry =>
    obtain ⟨other, hother, hlayer⟩ := List.exists_of_findSome?_eq_some hfind
    exact .inr ⟨other, hother, entry, hlayer, by rw [hentry, hfind, Option.some_or]⟩

/-- Files stay files. -/
theorem isFile (h : Laid c tree jobs tree') (hfile : tree.isFile place = true) :
    tree'.isFile place = true := by
  rcases h.cases place with hsame | ⟨other, -, entry, hlayer, hentry⟩
  · rw [FileTree.isFile, hsame]
    exact hfile
  · rcases (Job.layer_cases hlayer).2 with ⟨octets, rfl, -⟩ | ⟨-, hmem⟩
    · exact FileTree.isFile_eq_true_iff.2 ⟨octets, hentry⟩
    · rw [FileTree.not_blocked_of_mem_made hmem] at hfile
      cases hfile

/-- Directories stay directories. -/
theorem directory (h : Laid c tree jobs tree') (hdirectory : tree.entry? place = some .directory) :
    tree'.entry? place = some .directory := by
  rcases h.cases place with hsame | ⟨other, -, entry, hlayer, hentry⟩
  · rw [hsame, hdirectory]
  · rcases (Job.layer_cases hlayer).2 with ⟨octets, -, -, hnot, -⟩ | ⟨rfl, -⟩
    · exact absurd hdirectory hnot
    · exact hentry

variable (h : Laid c tree jobs tree') (hjobs : ∀ other ∈ jobs, other.Below root)
  (hbelow : job.Below root) (hindependent : ∀ other ∈ jobs, other.Independent job)
  (hfree : job.claimedBy = none)
include h hindependent hfree

/-- The document of an independent job is still what it was. -/
theorem read_eq (hfinds : tree.Finds job.source) : tree'.read job.source = tree.read job.source := by
  refine hfinds.read_eq (fun other => h.directory) fun hfile => ?_
  rcases h.cases job.source.place with hsame | ⟨other, hother, entry, hlayer, hentry⟩
  · exact hsame
  · obtain ⟨hclaim, hlaid⟩ := Job.layer_cases hlayer
    rcases hlaid with ⟨octets, -, hplace, -⟩ | ⟨-, hmem⟩
    · exact absurd hplace.symm (hindependent other hother hclaim hfree).1.1.1
    · rw [FileTree.not_blocked_of_mem_made hmem] at hfile
      cases hfile

include hjobs hbelow

/-- An independent job can still be delivered as before. -/
theorem delivery_eq : tree'.delivery job.destination = tree.delivery job.destination := by
  refine FileTree.delivery_congr (fun other => h.isFile) (fun place hplace => ?_) fun hplace => ?_
  · -- where the job makes directories, no other job has written its file
    rcases h.cases place with hsame | ⟨other, hother, entry, hlayer, hentry⟩
    · rw [FileTree.isFile, hsame]
      exact FileTree.not_blocked_of_mem_made hplace
    · obtain ⟨hclaim, hlaid⟩ := Job.layer_cases hlayer
      rcases hlaid with ⟨octets, -, rfl, -, hmade⟩ | ⟨rfl, -⟩
      · exact absurd hplace (Job.not_mem_made_of_spares (hjobs other hother) hbelow
          (hindependent other hother hclaim hfree).1.1 hmade)
      · exact FileTree.isFile_of_directory hentry
  · -- where the job writes its file, no other job has made a directory
    refine ⟨fun hdirectory => ?_, h.directory⟩
    rcases h.cases job.destination.place with hsame | ⟨other, hother, entry, hlayer, hentry⟩
    · rwa [← hsame]
    · obtain ⟨hclaim, hlaid⟩ := Job.layer_cases hlayer
      obtain ⟨⟨-, hspares⟩, hne⟩ := hindependent other hother hclaim hfree
      rcases hlaid with ⟨octets, -, heq, -⟩ | ⟨-, hmem⟩
      · exact absurd heq.symm hne
      · exact absurd hmem (Job.not_mem_made_of_spares hbelow (hjobs other hother) hspares hplace)

omit hfree

/-- A job that is independent of all jobs that have been run has the outcome that it has without
them. -/
theorem step (hfinds : tree.Finds job.source) :
    ((job.run c : StateM FileTree Outcome).run tree').1 =
        ((job.run c : StateM FileTree Outcome).run tree).1 ∧
      Laid c tree (job :: jobs) ((job.run c : StateM FileTree Outcome).run tree').2 := by
  obtain ⟨houtcome, hcovers⟩ := Job.run_congr c hbelow.hasEntry
    (fun hfree => h.read_eq hindependent hfree hfinds)
    (fun hfree => h.delivery_eq hjobs hbelow hindependent hfree)
  refine ⟨houtcome, fun place => ?_⟩
  rw [hcovers place, h place, layers_cons, Option.or_assoc]

end Laid

section

variable {c : Converter} {tree tree' : FileTree} {done jobs : List Job} {root : List Component}

/-- Jobs that are independent have the outcomes that each of them has alone. -/
theorem run_independent (h : Laid c tree done tree') (hbelow : ∀ job ∈ done ++ jobs, job.Below root)
    (hfinds : ∀ job ∈ jobs, tree.Finds job.source)
    (hindependent : (done ++ jobs).Pairwise Job.Independent) :
    ((jobs.mapM (Job.run c) : StateM FileTree (List Outcome)).run tree').1 =
        jobs.map (fun job => ((job.run c : StateM FileTree Outcome).run tree).1) ∧
      Laid c tree (jobs.reverse ++ done)
        ((jobs.mapM (Job.run c) : StateM FileTree (List Outcome)).run tree').2 := by
  induction jobs generalizing done tree' with
  | nil => exact ⟨rfl, h⟩
  | cons job rest ih =>
    have hdone : ∀ other ∈ done, other.Independent job := fun other hother =>
      (List.pairwise_append.1 hindependent).2.2 other hother job List.mem_cons_self
    obtain ⟨houtcome, hlaid⟩ := h.step
      (fun other hother => hbelow other (List.mem_append_left _ hother))
      (hbelow job (List.mem_append_right _ List.mem_cons_self)) hdone
      (hfinds job List.mem_cons_self)
    have hperm : (job :: done ++ rest).Perm (done ++ job :: rest) := List.perm_middle.symm
    obtain ⟨houtcomes, hlast⟩ := ih hlaid
      (fun other hother => hbelow other (hperm.mem_iff.1 hother))
      (fun other hother => hfinds other (List.mem_cons_of_mem _ hother))
      ((hperm.pairwise_iff Job.Independent.symm).2 hindependent)
    rw [List.mapM_cons, List.reverse_cons, List.append_assoc]
    exact ⟨congrArg₂ List.cons houtcome houtcomes, hlast⟩

end

/-! ### Plans -/

/-- Runs the jobs of a plan in an order of their own.  The outcomes are put in the order of the
plan. -/
def runInOrder {m : Type → Type} [Monad m] [FileSystem m] (c : Converter) (plan order : List Job) :
    m (List Outcome) := do
  let outcomes ← order.mapM (Job.run c)
  return plan.filterMap fun job => (order.zip outcomes).lookup job

section

variable {c : Converter} {options : Options} {tree : FileTree} {files : List Path}

theorem run_discover (options : Options) (tree : FileTree) :
    (options.discover : StateM FileTree (Except Failure (List Path))).run tree =
      (match tree.filesUnder options.sourceRoot with
      | .ok files => .ok (select options.extension files)
      | .error fault =>
        .error (.fileRead options.sourceRoot.toString ("IO error for operation on " ++
          options.sourceRoot.toString ++ ": " ++ fault.report)), tree) := by
  rw [Options.discover, StateT.run_bind]
  have hfound : (FileSystem.filesUnder options.sourceRoot :
      StateM FileTree (Except FileFault (List Path))).run tree =
        (tree.filesUnder options.sourceRoot, tree) := rfl
  rw [hfound]
  cases tree.filesUnder options.sourceRoot with
  | error fault => rfl
  | ok files => rfl

theorem discover_of_filesUnder (hfound : tree.filesUnder options.sourceRoot = .ok files)
    (hextension : ∀ file ∈ files, hasExtension options.extension file = true)
    (hsorted : files.Pairwise fun a b => a.le b = true) :
    ((options.discover : StateM FileTree (Except Failure (List Path))).run tree).1 = .ok files := by
  rw [run_discover, hfound]
  dsimp only
  rw [select, List.filter_eq_self.2 hextension, List.mergeSort_of_pairwise hsorted]

/-- The files of a batch are those with the extension that a search finds. -/
theorem filesUnder_of_discover
    (h : ((options.discover : StateM FileTree (Except Failure (List Path))).run tree).1 = .ok files) :
    ∃ found, tree.filesUnder options.sourceRoot = .ok found ∧
      ∀ file ∈ files, file ∈ found ∧ hasExtension options.extension file = true := by
  rw [run_discover] at h
  cases hfound : tree.filesUnder options.sourceRoot with
  | error fault =>
    rw [hfound] at h
    cases h
  | ok found =>
    rw [hfound] at h
    refine ⟨found, rfl, fun file hfile => ?_⟩
    rwa [← Except.ok.inj h, select, List.mem_mergeSort, List.mem_filter] at hfile

theorem below_of_mem_plan (hfiles : ∀ file ∈ files, hasExtension options.extension file = true)
    {job : Job} (h : job ∈ options.plan files) : job.Below options.destinationRoot.components := by
  obtain ⟨hsource, hdestination⟩ := Options.mem_plan h
  obtain ⟨name, hname⟩ := fileName?_of_hasExtension (hfiles _ hsource)
  refine ⟨directoryName? options.sourceRoot job.source, name, ?_⟩
  rw [hdestination]
  exact components_destination _ _ hname

/-- Jobs of a plan that are apart are independent. -/
theorem independent_plan (hfiles : ∀ file ∈ files, hasExtension options.extension file = true)
    (hapart : ((options.plan files).filter fun job => job.claimedBy.isNone).Pairwise Job.Apart) :
    (options.plan files).Pairwise Job.Independent := by
  have hboth := hapart.and (Options.pairwise_unclaimed options files)
  rw [List.pairwise_filter] at hboth
  refine hboth.imp_of_mem fun ha hb h hfree hfree' => ?_
  obtain ⟨hapart, hsame⟩ := h (by rw [hfree]; rfl) (by rw [hfree']; rfl)
  exact ⟨hapart, Job.Below.place_ne (below_of_mem_plan hfiles ha) (below_of_mem_plan hfiles hb) hsame⟩

theorem lookup_zip_map {α β : Type} [BEq α] [LawfulBEq α] (f : α → β) {keys : List α} {key : α}
    (h : key ∈ keys) : (keys.zip (keys.map f)).lookup key = some (f key) := by
  induction keys with
  | nil => cases h
  | cons first rest ih =>
    rw [List.map_cons, List.zip_cons_cons, List.lookup_cons]
    cases heq : key == first with
    | true => rw [eq_of_beq heq]
    | false =>
      exact ih ((List.mem_cons.1 h).resolve_left fun hkey => by simp [hkey] at heq)

/-- Jobs of a plan that are apart have the outcomes that each of them has alone, whatever their
order. -/
theorem run_plan_perm (htree : tree.WellFormed)
    (hfiles : ((options.discover : StateM FileTree (Except Failure (List Path))).run tree).1 =
      .ok files)
    (hapart : ((options.plan files).filter fun job => job.claimedBy.isNone).Pairwise Job.Apart)
    {order : List Job} (horder : order.Perm (options.plan files)) :
    ((order.mapM (Job.run c) : StateM FileTree (List Outcome)).run tree).1 =
        order.map (fun job => ((job.run c : StateM FileTree Outcome).run tree).1) ∧
      Laid c tree (options.plan files)
        ((order.mapM (Job.run c) : StateM FileTree (List Outcome)).run tree).2 := by
  obtain ⟨found, hfound, hfile⟩ := filesUnder_of_discover hfiles
  have hextension : ∀ file ∈ files, hasExtension options.extension file = true :=
    fun file hmem => (hfile file hmem).2
  have hbelow : ∀ job ∈ order, job.Below options.destinationRoot.components := fun job hjob =>
    below_of_mem_plan hextension (horder.mem_iff.1 hjob)
  have hindependent : order.Pairwise Job.Independent :=
    (horder.pairwise_iff Job.Independent.symm).2 (independent_plan hextension hapart)
  have hstart : Laid c tree [] tree := fun place => rfl
  obtain ⟨houtcomes, hlaid⟩ := run_independent hstart hbelow
    (fun job hjob => FileTree.finds_of_filesUnder htree hfound
      (hfile _ (Options.mem_plan (horder.mem_iff.1 hjob)).1).1)
    hindependent
  rw [List.append_nil] at hlaid
  have hlayers : layers c tree order.reverse = layers c tree (options.plan files) :=
    layers_perm ((List.reverse_perm order).trans horder)
      (fun job hjob => hbelow job (List.mem_reverse.1 hjob))
      (((List.reverse_perm order).pairwise_iff Job.Independent.symm).2 hindependent)
  rw [Laid, hlayers] at hlaid
  exact ⟨houtcomes, hlaid⟩

theorem run_runInOrder (plan order : List Job) :
    (runInOrder c plan order : StateM FileTree (List Outcome)).run tree =
      let result := (order.mapM (Job.run c) : StateM FileTree (List Outcome)).run tree
      (plan.filterMap fun job => (order.zip result.1).lookup job, result.2) := rfl

theorem run_run :
    (run c options : StateM FileTree (Except Failure Summary)).run tree =
      match ((options.discover : StateM FileTree (Except Failure (List Path))).run tree).1 with
      | .error failure => (.error failure, tree)
      | .ok files =>
        let result :=
          ((options.plan files).mapM (Job.run c) : StateM FileTree (List Outcome)).run tree
        (.ok ⟨options.sourceRoot, options.destinationRoot, result.1⟩, result.2) := by
  rw [run, StateT.run_bind, run_discover]
  cases tree.filesUnder options.sourceRoot with
  | error fault => rfl
  | ok files => rfl

/-- **The order of the jobs.**  For all settings and all trees in which every entry is in a directory:
if no job of the batch writes to what another one reads, or where another one needs a directory, then
in all orders the outcomes and the trees are the same, namely those of the batch; and the outcome of
each job is the one that it has alone. -/
theorem runInOrder_eq (c : Converter) (options : Options) (htree : tree.WellFormed)
    (hfiles : ((options.discover : StateM FileTree (Except Failure (List Path))).run tree).1 =
      .ok files)
    (hapart : ((options.plan files).filter fun job => job.claimedBy.isNone).Pairwise Job.Apart)
    {order order' : List Job} (horder : order.Perm (options.plan files))
    (horder' : order'.Perm (options.plan files)) :
    let first := (runInOrder c (options.plan files) order : StateM FileTree (List Outcome)).run tree
    let second :=
      (runInOrder c (options.plan files) order' : StateM FileTree (List Outcome)).run tree
    let batch := (run c options : StateM FileTree (Except Failure Summary)).run tree
    (first.1 = second.1 ∧ first.2.Same second.2) ∧
      (batch.1 = .ok ⟨options.sourceRoot, options.destinationRoot, first.1⟩ ∧
        first.2.Same batch.2) ∧
      first.1 = (options.plan files).map
        (fun job => ((job.run c : StateM FileTree Outcome).run tree).1) := by
  have hrun : ∀ order : List Job, order.Perm (options.plan files) →
      ((runInOrder c (options.plan files) order : StateM FileTree (List Outcome)).run tree).1 =
          (options.plan files).map
            (fun job => ((job.run c : StateM FileTree Outcome).run tree).1) ∧
        Laid c tree (options.plan files)
          ((runInOrder c (options.plan files) order : StateM FileTree (List Outcome)).run tree).2 := by
    intro order horder
    obtain ⟨houtcomes, hlaid⟩ := run_plan_perm (c := c) htree hfiles hapart horder
    rw [run_runInOrder]
    refine ⟨?_, hlaid⟩
    dsimp only
    rw [houtcomes]
    refine (List.filterMap_congr fun job hjob =>
      lookup_zip_map _ (horder.mem_iff.2 hjob)).trans ?_
    exact congrFun List.filterMap_eq_map _
  intro first second batch
  obtain ⟨houtcomes, hlaid⟩ := hrun order horder
  obtain ⟨houtcomes', hlaid'⟩ := hrun order' horder'
  obtain ⟨hplan, hplaid⟩ := run_plan_perm (c := c) htree hfiles hapart (List.Perm.refl _)
  have hbatch : batch = _ := run_run
  rw [hfiles] at hbatch
  refine ⟨⟨houtcomes.trans houtcomes'.symm, fun place => (hlaid place).trans (hlaid' place).symm⟩,
    ⟨?_, ?_⟩, houtcomes⟩
  · rw [hbatch, houtcomes]
    dsimp only
    rw [hplan]
  · rw [hbatch]
    exact fun place => (hlaid place).trans (hplaid place).symm

/-- Two documents, one of them in a directory, can be converted in both orders. -/
theorem runInOrder_sales :
    let c : Converter := ⟨.standard, true⟩
    let options : Options := ⟨.ofString "in", .ofString "out", "sql", false⟩
    let tree : FileTree := ⟨[(["in".toList], .directory),
      (["in".toList, "a.sql".toList], .file (Text.toUtf8 "SELECT SYSDATE;".toList)),
      (["in".toList, "sales".toList], .directory),
      (["in".toList, "sales".toList, "b.sql".toList], .file [])]⟩
    let plan := options.plan [.ofString "in/a.sql", .ofString "in/sales/b.sql"]
    let first := (runInOrder c plan plan : StateM FileTree (List Outcome)).run tree
    let second := (runInOrder c plan plan.reverse : StateM FileTree (List Outcome)).run tree
    first.1 = second.1 ∧ first.2.Same second.2 := by
  intro c options tree plan first second
  have hfiles := @discover_of_filesUnder options tree
    [.ofString "in/a.sql", .ofString "in/sales/b.sql"] (by decide +kernel) (by decide +kernel)
    (by decide +kernel)
  exact (runInOrder_eq c options (by decide +kernel) hfiles (by decide +kernel)
    (List.Perm.refl plan) (List.reverse_perm plan)).1

/-- The order decides which of two documents is converted if one is to be written where the directory
of the other one is to be. -/
theorem runInOrder_crossing :
    let c : Converter := ⟨.standard, true⟩
    let options : Options := ⟨.ofString "in", .ofString "out", "sql", false⟩
    let tree : FileTree := ⟨[(["in".toList], .directory), (["in".toList, "a.sql".toList], .file []),
      (["in".toList, "z".toList], .directory),
      (["in".toList, "z".toList, "a.sql".toList], .directory),
      (["in".toList, "z".toList, "a.sql".toList, "b.sql".toList], .file [])]⟩
    let files : List Path := [.ofString "in/a.sql", .ofString "in/z/a.sql/b.sql"]
    let plan := options.plan files
    let first := (runInOrder c plan plan : StateM FileTree (List Outcome)).run tree
    let second := (runInOrder c plan plan.reverse : StateM FileTree (List Outcome)).run tree
    tree.WellFormed ∧
      ((options.discover : StateM FileTree (Except Failure (List Path))).run tree).1 = .ok files ∧
      plan.reverse.Perm plan ∧ plan.map Job.claimedBy = [none, none] ∧
      first.1.map (fun outcome => outcome.report?.isSome) = [true, false] ∧
      second.1.map (fun outcome => outcome.report?.isSome) = [false, true] ∧
      FileTree.entry? first.2 ["out".toList, "a.sql".toList] = some (.file []) ∧
      FileTree.entry? second.2 ["out".toList, "a.sql".toList] = some .directory := by
  intro c options tree files plan first second
  refine ⟨by decide +kernel, ?_, List.reverse_perm plan, by decide +kernel⟩
  exact discover_of_filesUnder (by decide +kernel) (by decide +kernel) (by decide +kernel)

/-- The order decides what is converted if a document is to be written to the file of another one:
here the document of `in/z/a.sql` is lost if that of `in/a.sql` comes first. -/
example :
    let c : Converter := ⟨.standard, true⟩
    let options : Options := ⟨.ofString "in", .ofString "in/z", "sql", false⟩
    let tree : FileTree := ⟨[(["in".toList], .directory),
      (["in".toList, "a.sql".toList], .file [45, 45, 10]), (["in".toList, "z".toList], .directory),
      (["in".toList, "z".toList, "a.sql".toList], .file [])]⟩
    let plan := options.plan [.ofString "in/a.sql", .ofString "in/z/a.sql"]
    let first := (runInOrder c plan plan : StateM FileTree (List Outcome)).run tree
    let second := (runInOrder c plan plan.reverse : StateM FileTree (List Outcome)).run tree
    let place := ["in".toList, "z".toList, "z".toList, "a.sql".toList]
    FileTree.entry? first.2 place = some (.file [45, 45, 10]) ∧
      FileTree.entry? second.2 place = some (.file []) := by
  decide +kernel

end

end SqlDialect.Batch
