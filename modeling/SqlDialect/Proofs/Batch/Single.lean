import SqlDialect.CommandLine.Program
import SqlDialect.Proofs.Batch.Order
import SqlDialect.Proofs.Document.Stream

/-!
# Documents of a batch and single documents

A document of a batch is converted as it is converted by itself: what is written to its destination is
what would be written to the standard output, and it fails for the same reason.

* `Batch.run_runSingle` : the conversion of a single document.
* `Batch.Job.run_eq_runSingle` : a job against the conversion of its document by itself.
-/

namespace SqlDialect

theorem Conversion.ofUtf8Lossy_octets (conversion : Conversion) :
    Text.ofUtf8Lossy conversion.octets = conversion.text :=
  Text.ofUtf8Lossy_toUtf8 conversion.text

/-- What is converted of a document that can be decoded is what is written when its text is converted
as a stream. -/
theorem Converter.convertOctets_of_decode (c : Converter) (name : Option String) {label : String}
    {octets : List UInt8} {text : List Char} {encoding : Encoding}
    (h : Encoding.decode label octets = .ok (text, encoding)) :
    ∃ conversion, c.convertOctets label name octets = .ok (encoding, conversion) ∧
      c.transcribe name (Text.toUtf8 text) ⟨none, false⟩ =
        ⟨conversion.text, .ok conversion.report⟩ := by
  refine ⟨c.convert (.ofText name text), ?_, transcribe_toUtf8 name text false⟩
  rw [convertOctets, h]
  rfl

theorem Converter.convertOctets_of_decode_error (c : Converter) (name : Option String)
    {label : String} {octets : List UInt8} {failure : Failure}
    (h : Encoding.decode label octets = .error failure) :
    c.convertOctets label name octets = .error failure := by
  rw [convertOctets, h]
  rfl

namespace Batch

open CommandLine (converter documentName isStandardInput runSingle)

variable {tree : FileTree} {path : Path}

/-- A file with an extension is not the standard input. -/
theorem isStandardInput_of_hasExtension {wanted : String} (h : hasExtension wanted path = true) :
    isStandardInput path = false := by
  rw [isStandardInput, beq_eq_false_iff_ne]
  intro htext
  rw [show path = ⟨['-']⟩ from congrArg Path.mk htext] at h
  cases h

/-- The conversion of a single document to the standard output. -/
theorem run_runSingle (settings : Settings)
    (input : StateM FileTree (Except FileFault (List UInt8))) (noRemarks verbose : Bool)
    (h : isStandardInput path = false) :
    (runSingle settings input ⟨path, none, noRemarks, none, verbose⟩ :
      StateM FileTree (Except Failure CommandLine.Ending)).run tree =
      (match tree.read path with
      | .error fault => .error (.fileRead path.toString fault.report)
      | .ok octets =>
        match (converter settings noRemarks).convertOctets path.toString
            (path.stem?.map String.ofList) octets with
        | .error failure => .error failure
        | .ok (_, conversion) => .ok ⟨0, conversion.text, []⟩, tree) := by
  have hread : (CommandLine.readInput input path :
      StateM FileTree (Except Failure (List UInt8))).run tree =
        ((tree.read path).mapError fun fault => .fileRead path.toString fault.report, tree) := by
    rw [CommandLine.readInput, h]
    rfl
  have hname : documentName path none = path.stem?.map String.ofList := by
    rw [documentName, h]
    rfl
  rw [runSingle, ExceptT.run_bind, StateT.run_bind, ExceptT.run_mk]
  dsimp only
  rw [hread, hname]
  cases tree.read path with
  | error fault => rfl
  | ok octets =>
    dsimp only [Except.mapError, bind, pure_bind]
    cases (converter settings noRemarks).convertOctets path.toString
      (path.stem?.map String.ofList) octets with
    | error failure => rfl
    | ok result =>
      obtain ⟨encoding, conversion⟩ := result
      dsimp only
      rw [← conversion.ofUtf8Lossy_octets]
      rfl

/-- **A document of a batch and by itself.**  For all settings, with and without remarks, and for every
job of a batch that has a destination of its own: if its file cannot be read or not be decoded, then it
fails as its document does by itself, and leaves the tree unchanged.  If it can be decoded and its
destination can be written to, then what is at the destination afterwards is what is written to the
standard output for its document by itself, namely what the text converts to. -/
theorem Job.run_eq_runSingle (settings : Settings) (noRemarks verbose : Bool)
    (input : StateM FileTree (Except FileFault (List UInt8))) (options : Options)
    {files : List Path} {job : Job}
    (hfiles : ((options.discover : StateM FileTree (Except Failure (List Path))).run tree).1 =
      .ok files)
    (hjob : job ∈ options.plan files) (hfree : job.claimedBy = none)
    (hwritable : ((deliver job.destination [] :
      StateM FileTree (Except Failure Unit)).run tree).1 = .ok ()) :
    let c := converter settings noRemarks
    let single := (runSingle settings input ⟨job.source, none, noRemarks, none, verbose⟩ :
      StateM FileTree (Except Failure CommandLine.Ending)).run tree
    let batch := (job.run c : StateM FileTree Outcome).run tree
    (∀ fault, tree.read job.source = .error fault →
      single = (.error (.fileRead job.source.toString fault.report), tree) ∧
      batch = (job.outcome none (.error (.fileRead job.source.toString fault.report)), tree)) ∧
    ∀ octets, tree.read job.source = .ok octets →
      (∀ failure, Encoding.decode job.source.toString octets = .error failure →
        single = (.error failure, tree) ∧ batch = (job.outcome none (.error failure), tree)) ∧
      ∀ text encoding, Encoding.decode job.source.toString octets = .ok (text, encoding) →
        let translated := c.transcribe (job.source.stem?.map String.ofList) (Text.toUtf8 text)
          ⟨none, false⟩
        single = (.ok ⟨0, translated.written, []⟩, tree) ∧
        batch.1 = job.outcome (some encoding) translated.result ∧
        batch.2.read job.destination = .ok (Text.toUtf8 translated.written) := by
  intro c single batch
  obtain ⟨found, -, hfile⟩ := filesUnder_of_discover hfiles
  have hextension : ∀ file ∈ files, hasExtension options.extension file = true :=
    fun file hmem => (hfile file hmem).2
  obtain ⟨above, chars, hcomponents⟩ := (below_of_mem_plan hextension hjob).hasEntry
  have hsingle : single = _ := run_runSingle settings input noRemarks verbose
    (isStandardInput_of_hasExtension (hextension _ (Options.mem_plan hjob).1))
  have hbatch : batch = _ := run_of_not_claimed hfree
  rw [reading] at hbatch
  refine ⟨fun fault hread => ?_, fun octets hread => ⟨fun failure hdecode => ?_, ?_⟩⟩
  · rw [hread] at hsingle hbatch
    exact ⟨hsingle, hbatch⟩
  · have hconvert := c.convertOctets_of_decode_error (job.source.stem?.map String.ofList) hdecode
    rw [hread] at hsingle hbatch
    dsimp only at hsingle hbatch
    rw [hconvert] at hsingle hbatch
    exact ⟨hsingle, hbatch⟩
  · intro text encoding hdecode translated
    obtain ⟨conversion, hconvert, htranscribe⟩ :=
      c.convertOctets_of_decode (job.source.stem?.map String.ofList) hdecode
    have htranslated : translated = ⟨conversion.text, .ok conversion.report⟩ := htranscribe
    rw [hread] at hsingle hbatch
    dsimp only at hsingle hbatch
    rw [hconvert] at hsingle hbatch
    dsimp only at hsingle hbatch
    have hwritten := FileTree.deliver_ok_of_deliver_ok hcomponents hwritable conversion.octets
    rw [hsingle, hbatch, htranslated, hwritten]
    exact ⟨rfl, rfl, FileTree.read_of_deliver hcomponents (Prod.ext hwritten rfl)⟩

/-- A document behind a byte order mark. -/
theorem Job.run_eq_runSingle_marked :
    let settings : Settings := {}
    let c := converter settings false
    let options : Options := ⟨.ofString "in", .ofString "out", "sql", false⟩
    let octets := Encoding.mark ++ Text.toUtf8 "SELECT SYSDATE;".toList
    let tree : FileTree :=
      ⟨[(["in".toList], .directory), (["in".toList, "a.sql".toList], .file octets)]⟩
    let job : Job := ⟨.ofString "in/a.sql", .ofString "out/a.sql", none⟩
    let single := (runSingle settings (pure (.ok [])) ⟨job.source, none, false, none, false⟩ :
      StateM FileTree (Except Failure CommandLine.Ending)).run tree
    let batch := (job.run c : StateM FileTree Outcome).run tree
    let translated := c.transcribe (some "a") (Text.toUtf8 "SELECT SYSDATE;".toList) ⟨none, false⟩
    job ∈ options.plan [job.source] ∧ single = (.ok ⟨0, translated.written, []⟩, tree) ∧
      batch.1 = job.outcome (some .utf8Marked) translated.result ∧
      batch.2.read job.destination = .ok (Text.toUtf8 translated.written) := by
  intro settings c options octets tree job single batch translated
  have hfiles := @discover_of_filesUnder options tree [job.source] (by decide +kernel)
    (by decide +kernel) (by decide +kernel)
  have hjob : job ∈ options.plan [job.source] := by decide +kernel
  have hagree := Job.run_eq_runSingle settings false false (pure (.ok [])) options hfiles hjob rfl
    (by decide +kernel)
  exact ⟨hjob, (hagree.2 octets (by decide +kernel)).2 "SELECT SYSDATE;".toList .utf8Marked
    (by decide +kernel)⟩

end Batch

end SqlDialect
