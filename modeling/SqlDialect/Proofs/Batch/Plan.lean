import SqlDialect.Batch.Plan
import SqlDialect.Proofs.Path

/-!
# What a plan promises

* `Batch.exists_names_destination` : a destination is the destination root and one name or two
  behind it, the last of which is that of the file.
* `Batch.Options.claimedBy_eq` : a job is claimed by the first job before it with the same
  destination.
* `Batch.Options.plan_claims` : the jobs that convert a document have destinations of their own.
-/

namespace SqlDialect.Batch

open SqlDialect.Path

/-! ### Destinations -/

/-- The directory of the destination below the destination root, if it is not the root itself: the
name of the directory that the file is in. -/
def directoryName? (sourceRoot source : Path) : Option (List Char) :=
  (parentComponents? (source.stepsFrom sourceRoot)).bind lastName?

theorem fileName?_of_hasExtension {wanted : String} {file : Path}
    (h : hasExtension wanted file = true) : ∃ name, file.fileName? = some name := by
  rw [hasExtension, extension?] at h
  cases hname : file.fileName? with
  | some name => exact ⟨name, rfl⟩
  | none => simp [hname] at h

theorem isName_of_fileName? {file : Path} {name : List Char} (h : file.fileName? = some name) :
    IsName name :=
  isName_of_lastName? (isSteps_components file) h

theorem isName_of_directoryName? {sourceRoot source : Path} {name : List Char}
    (h : directoryName? sourceRoot source = some name) : IsName name := by
  obtain ⟨above, hparent, hlast⟩ := Option.bind_eq_some_iff.1 h
  obtain ⟨others, rfl⟩ := lastName?_eq_some_iff.1 hlast
  -- the name is one of the steps of the file
  have hmem : .name name ∈ source.stepsFrom sourceRoot := by
    rw [parentComponents?] at hparent
    split at hparent
    · cases hparent
    · cases hparent
    · refine List.dropLast_subset _ ?_
      rw [Option.some.inj hparent]
      exact List.mem_append_right _ (List.mem_singleton.2 rfl)
  refine (isSteps_components source).isName ?_
  rw [stepsFrom] at hmem
  split at hmem
  · exact List.mem_of_mem_drop hmem
  · exact hmem

/-- The steps of a destination. -/
theorem components_destination (sourceRoot destinationRoot : Path) {source : Path}
    {name : List Char} (h : source.fileName? = some name) :
    (destination sourceRoot destinationRoot source).components =
      destinationRoot.components ++
        ((directoryName? sourceRoot source).toList ++ [name]).map .name := by
  have hname : IsName name := isName_of_fileName? h
  cases hdirectory : directoryName? sourceRoot source with
  | none =>
    have hplace : destination sourceRoot destinationRoot source = destinationRoot.join ⟨name⟩ := by
      rw [directoryName?] at hdirectory
      simp only [destination, h, hdirectory, Option.map_some, Option.getD_some]
    rw [hplace]
    exact components_entry _ hname
  | some above =>
    have hplace : destination sourceRoot destinationRoot source =
        (destinationRoot.entry above).join ⟨name⟩ := by
      rw [directoryName?] at hdirectory
      simp only [destination, h, hdirectory, Option.map_some, Option.getD_some]
    have hentry := components_entry (destinationRoot.entry above) hname
    rw [components_entry destinationRoot (isName_of_directoryName? hdirectory),
      List.append_assoc] at hentry
    rw [hplace]
    exact hentry

/-- A destination is the destination root with one name or two behind it, the last one being that of
the file. -/
theorem exists_names_destination (sourceRoot destinationRoot : Path) {source : Path}
    {name : List Char} (h : source.fileName? = some name) :
    ∃ names : List (List Char), (names.length = 1 ∨ names.length = 2) ∧
      (∀ chars ∈ names, IsName chars) ∧ names.getLast? = some name ∧
      (destination sourceRoot destinationRoot source).components =
        destinationRoot.components ++ names.map .name := by
  refine ⟨(directoryName? sourceRoot source).toList ++ [name], ?_, ?_, List.getLast?_concat,
    components_destination sourceRoot destinationRoot h⟩
  · cases directoryName? sourceRoot source with
    | none => exact .inl rfl
    | some above => exact .inr rfl
  · intro chars hchars
    rcases List.mem_append.1 hchars with hmem | hmem
    · exact isName_of_directoryName? (Option.mem_toList.1 hmem)
    · rw [List.mem_singleton.1 hmem]
      exact isName_of_fileName? h

/-! ### Claims -/

namespace Options

variable (options : Options)

/-- The claims name, for every destination, the first of the jobs with that destination. -/
def Records (claims : Claims) (earlier : List Job) : Prop :=
  ∀ destination, claims.holder? destination =
    (earlier.find? fun job => job.destination.same destination).map Job.source

variable {options} {claims : Claims} {earlier : List Job}

/-- A job whose destination is claimed changes no claim. -/
theorem Records.keep (h : Records claims earlier) {job : Job} {holder : Path}
    (hheld : claims.holder? job.destination = some holder) : Records claims (earlier ++ [job]) := by
  intro destination
  rw [h destination, List.find?_append]
  cases hfind : earlier.find? fun other => other.destination.same destination with
  | some first => rfl
  | none =>
    by_cases hsame : job.destination.same destination = true
    · -- then the destination had no claim, though it is that of the job
      rw [h job.destination] at hheld
      have hnone : (earlier.find? fun other => other.destination.same job.destination) = none := by
        rw [List.find?_eq_none] at hfind ⊢
        intro other hother
        have hdistinct := hfind other hother
        rw [same, beq_iff_eq] at hsame hdistinct ⊢
        rwa [hsame]
      rw [hnone] at hheld
      cases hheld
    · rw [List.find?_singleton, if_neg hsame]
      rfl

/-- A job whose destination is not claimed claims it. -/
theorem Records.claim (h : Records claims earlier) {job : Job}
    (hfree : claims.holder? job.destination = none) :
    Records ((job.destination, job.source) :: claims) (earlier ++ [job]) := by
  intro destination
  rw [Claims.holder?, List.find?_cons, List.find?_append]
  dsimp only
  cases hsame : job.destination.same destination with
  | true =>
    have hnone : (earlier.find? fun other => other.destination.same destination) = none := by
      rw [h job.destination, Option.map_eq_none_iff, List.find?_eq_none] at hfree
      rw [List.find?_eq_none]
      intro other hother
      have hdistinct := hfree other hother
      rw [same, beq_iff_eq] at hsame hdistinct ⊢
      rwa [← hsame]
    rw [hnone, List.find?_singleton, if_pos hsame]
    rfl
  | false =>
    have hkept := h destination
    rw [Claims.holder?] at hkept
    rw [hkept, List.find?_singleton, if_neg (by simp [hsame]), Option.or_none]

/-- Every job of a plan is claimed by the first job before it with the same destination. -/
theorem claimedBy_planWith (h : Records claims earlier) (files : List Path) :
    ∀ before job after, options.planWith claims files = before ++ job :: after →
      job.claimedBy =
        ((earlier ++ before).find? fun other => other.destination.same job.destination).map
          Job.source := by
  induction files generalizing claims earlier with
  | nil =>
    intro before job after hplan
    simp [planWith] at hplan
  | cons source rest ih =>
    -- what holds for the plan of the rest holds behind one more job, whoever holds its destination
    have step : ∀ first : Job, ∀ claims',
        options.planWith claims (source :: rest) = first :: options.planWith claims' rest →
        first.claimedBy = claims.holder? first.destination →
        Records claims' (earlier ++ [first]) →
        ∀ before job after, options.planWith claims (source :: rest) = before ++ job :: after →
          job.claimedBy =
            ((earlier ++ before).find? fun other =>
              other.destination.same job.destination).map Job.source := by
      intro first claims' hcons hclaimed hrecords before job after hplan
      rw [hcons] at hplan
      cases before with
      | nil =>
        obtain ⟨rfl, -⟩ := List.cons.inj hplan
        rw [hclaimed, h, List.append_nil]
      | cons other before =>
        obtain ⟨rfl, hrest⟩ := List.cons.inj hplan
        rw [ih hrecords before job after hrest, List.append_assoc]
        rfl
    cases hheld : claims.holder? (options.destination source) with
    | some holder =>
      exact step ⟨source, options.destination source, some holder⟩ claims
        (by rw [planWith, hheld]) hheld.symm (h.keep hheld)
    | none =>
      exact step ⟨source, options.destination source, none⟩ _
        (by rw [planWith, hheld]) hheld.symm (h.claim hheld)

theorem map_planWith (claims : Claims) (files : List Path) :
    (options.planWith claims files).map (fun job => (job.source, job.destination)) =
      files.map fun file => (file, options.destination file) := by
  induction files generalizing claims with
  | nil => rfl
  | cons source rest ih =>
    rw [planWith]
    split
    · rw [List.map_cons, ih, List.map_cons]
    · rw [List.map_cons, ih, List.map_cons]

variable {files : List Path}

/-- The jobs of a plan are those of its files. -/
theorem mem_plan {job : Job} (h : job ∈ options.plan files) :
    job.source ∈ files ∧ job.destination = options.destination job.source := by
  have hpair : (job.source, job.destination) ∈
      (options.planWith [] files).map fun job => (job.source, job.destination) :=
    List.mem_map_of_mem h
  rw [map_planWith, List.mem_map] at hpair
  obtain ⟨file, hfile, hpair⟩ := hpair
  obtain ⟨rfl, hdestination⟩ := Prod.mk.inj hpair
  exact ⟨hfile, hdestination.symm⟩

theorem claimedBy_eq {before after : List Job} {job : Job}
    (h : options.plan files = before ++ job :: after) :
    job.claimedBy =
      (before.find? fun other => other.destination.same job.destination).map Job.source := by
  have hstart : Records [] [] := fun _ => rfl
  exact claimedBy_planWith hstart files before job after h

/-- A job is claimed if and only if a job before it has the same destination. -/
theorem isSome_claimedBy_iff {before after : List Job} {job : Job}
    (h : options.plan files = before ++ job :: after) :
    job.claimedBy.isSome = true ↔
      ∃ other ∈ before, other.destination.same job.destination = true := by
  rw [claimedBy_eq h, Option.isSome_map, List.find?_isSome]

/-- Jobs that are not claimed have destinations of their own. -/
theorem pairwise_unclaimed (options : Options) (files : List Path) :
    ((options.plan files).filter fun job => job.claimedBy.isNone).Pairwise
      fun a b => a.destination.same b.destination = false := by
  rw [List.pairwise_filter, List.pairwise_iff_forall_sublist]
  intro a b hsub _ hfree
  -- cut the plan before the second of the two jobs
  obtain ⟨before, after, hplan, ha⟩ :
      ∃ before after, options.plan files = before ++ b :: after ∧ a ∈ before := by
    obtain ⟨first, second, hplan, hfirst, hsecond⟩ := List.cons_sublist_iff.1 hsub
    obtain ⟨others, after, rfl⟩ := List.append_of_mem (List.singleton_sublist.1 hsecond)
    exact ⟨first ++ others, after, by rw [hplan, List.append_assoc],
      List.mem_append_left _ hfirst⟩
  by_contra hsame
  have hclaimed := (isSome_claimedBy_iff hplan).2 ⟨a, ha, by simpa using hsame⟩
  rw [← Option.not_isNone, hfree] at hclaimed
  cases hclaimed

/-- **Plans.**  For all options and all files with the extension that they ask for: there is one job
for each file, in order.  Jobs that are not claimed have destinations of their own.  A job is claimed
if and only if a job before it has the same destination, and then by the file of the first of those,
which is not claimed itself.  Every destination is the destination root with one name or two behind
it, the last of which is the name of the file. -/
theorem plan_claims (options : Options) (files : List Path)
    (hfiles : ∀ file ∈ files, hasExtension options.extension file = true) :
    (options.plan files).map Job.source = files ∧
    ((options.plan files).filter fun job => job.claimedBy.isNone).Pairwise
      (fun a b => a.destination.same b.destination = false) ∧
    (∀ before job after, options.plan files = before ++ job :: after →
      (job.claimedBy.isSome = true ↔
        ∃ other ∈ before, other.destination.same job.destination = true) ∧
      ∀ file, job.claimedBy = some file →
        ∃ others first more, before = others ++ first :: more ∧ first.source = file ∧
          first.claimedBy = none ∧ first.destination.same job.destination = true ∧
          ∀ other ∈ others, other.destination.same job.destination = false) ∧
    ∀ job ∈ options.plan files, ∃ names : List (List Char),
      (names.length = 1 ∨ names.length = 2) ∧ (∀ chars ∈ names, IsName chars) ∧
      names.getLast? = job.source.fileName? ∧
      job.destination.components = options.destinationRoot.components ++ names.map .name := by
  have hmap : (options.planWith [] files).map _ = _ := map_planWith [] files
  refine ⟨?_, pairwise_unclaimed options files, fun before job after hplan => ?_, fun job hjob => ?_⟩
  · have hsources := congrArg (List.map Prod.fst) hmap
    rwa [List.map_map, List.map_map, Function.comp_def, Function.comp_def, List.map_id'] at hsources
  · refine ⟨isSome_claimedBy_iff hplan, fun file hfile => ?_⟩
    rw [claimedBy_eq hplan, Option.map_eq_some_iff] at hfile
    obtain ⟨first, hfind, hsource⟩ := hfile
    obtain ⟨hsame, others, more, rfl, hothers⟩ := List.find?_eq_some_iff_append.1 hfind
    have hdistinct : ∀ other ∈ others, other.destination.same job.destination = false :=
      fun other hother => by simpa using hothers other hother
    refine ⟨others, first, more, rfl, hsource, ?_, hsame, hdistinct⟩
    -- a job before the first one would have the destination of the job, too
    rw [List.append_assoc, List.cons_append] at hplan
    by_contra hclaimed
    obtain ⟨other, hother, hsameFirst⟩ :=
      (isSome_claimedBy_iff hplan).1 (Option.isSome_iff_ne_none.2 hclaimed)
    have hne := hdistinct other hother
    rw [same, beq_iff_eq] at hsame hsameFirst
    rw [same, beq_eq_false_iff_ne] at hne
    exact hne (hsameFirst.trans hsame)
  · obtain ⟨hsource, hdestination⟩ := mem_plan hjob
    obtain ⟨name, hname⟩ := fileName?_of_hasExtension (hfiles _ hsource)
    obtain ⟨names, hlength, hnames, hlast, hcomponents⟩ :=
      exists_names_destination options.sourceRoot options.destinationRoot hname
    rw [hdestination]
    exact ⟨names, hlength, hnames, hlast.trans hname.symm, hcomponents⟩

/-- Of two files in directories with the same name, the first one claims the destination. -/
theorem plan_sales :
    let options : Options := ⟨.ofString "in", .ofString "out", "sql", false⟩
    let files : List Path :=
      [.ofString "in/a/sales/t.sql", .ofString "in/b/sales/t.sql", .ofString "in/t.sql"]
    (options.plan files).map Job.claimedBy = [none, some (.ofString "in/a/sales/t.sql"), none] ∧
    (options.plan files).map Job.source = files ∧
    ((options.plan files).filter fun job => job.claimedBy.isNone).Pairwise
      (fun a b => a.destination.same b.destination = false) ∧
    ∀ job ∈ options.plan files, ∃ names : List (List Char),
      (names.length = 1 ∨ names.length = 2) ∧ (∀ chars ∈ names, IsName chars) ∧
      names.getLast? = job.source.fileName? ∧
      job.destination.components = [.name "out".toList] ++ names.map .name := by
  intro options files
  obtain ⟨hsources, hdistinct, -, hcomponents⟩ := plan_claims options files (by decide +kernel)
  exact ⟨by decide +kernel, hsources, hdistinct, hcomponents⟩

end Options

end SqlDialect.Batch
