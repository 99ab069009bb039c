import NyonOS.Fat.Containment

namespace NyonOS.Fat

open Data List Finset Nat
open Nat (find mul_le_mul)

variable {vol : Volume} {disk : Disk} {lba cluster : Nat}

/-! The loops of reading and writing end: more rounds than the model gives them change
nothing. -/

theorem writeLoop_rounds {fuel more : Nat} (cluster within : Nat) {src : List Byte} (enough : src.length ≤ fuel)
    (enoughMore : src.length ≤ more) : writeLoop vol fuel cluster within src = writeLoop vol more cluster within src := by
  induction fuel generalizing more cluster within src with
  | zero =>
    have finished : src = [] := length_eq_zero_iff.mp (by omega)
    subst finished
    cases more with
    | zero => rfl
    | succ more => rw [writeLoop, writeLoop, if_pos rfl]
  | succ fuel ih =>
    cases more with
    | zero =>
      have finished : src = [] := length_eq_zero_iff.mp (by omega)
      subst finished
      rw [writeLoop, writeLoop, if_pos rfl]
    | succ more =>
      rw [writeLoop, writeLoop]
      by_cases finished : src = []
      · rw [if_pos finished, if_pos finished]
      · rw [if_neg finished, if_neg finished]
        have some_ := length_pos_iff.mpr finished
        have shorter : (src.drop (min (fsSectorSize - within % fsSectorSize) src.length)).length < src.length := by
          rw [length_drop]
          unfold fsSectorSize
          omega
        refine Program.bind_congr fun sbuf => ?_
        cases sbuf with
        | none => rfl
        | some sbuf =>
          refine Program.bind_congr fun written => ?_
          cases written with
          | false => rfl
          | true =>
            simp only [Bool.not_true, Bool.false_eq_true, if_false]
            split
            · refine Program.bind_congr fun next => ?_
              cases next with
              | none => rfl
              | some next => exact ih next 0 (by omega) (by omega)
            · exact ih cluster _ (by omega) (by omega)

theorem readLoop_rounds {fuel more : Nat} (cluster : Nat) {within len : Nat} (out : Nat) (enough : len ≤ fuel)
    (enoughMore : len ≤ more) (inside : len ≠ 0 → within < vol.clusterSize) :
    readLoop vol fuel cluster within out len = readLoop vol more cluster within out len := by
  induction fuel generalizing more cluster within out len with
  | zero =>
    have finished : len = 0 := by omega
    subst finished
    cases more with
    | zero => rfl
    | succ more => rw [readLoop, readLoop, if_pos rfl]
  | succ fuel ih =>
    cases more with
    | zero =>
      have finished : len = 0 := by omega
      subst finished
      rw [readLoop, readLoop, if_pos rfl]
    | succ more =>
      rw [readLoop, readLoop]
      by_cases finished : len = 0
      · rw [if_pos finished, if_pos finished]
      · rw [if_neg finished, if_neg finished]
        obtain ⟨some_, -, inCluster, -⟩ := readChunk_spec out finished (inside finished)
        refine Program.bind_congr fun buf => ?_
        cases buf with
        | none => rfl
        | some buf =>
          dsimp only
          split
          · refine Program.bind_congr fun next => ?_
            cases next with
            | none => rfl
            | some nx => exact congrArg (· >>= _) (ih nx _ (by omega) (by omega) fun _ => by omega)
          · rename_i notFull
            refine congrArg (· >>= _) (ih cluster _ (by omega) (by omega) fun rest => ?_)
            have full : within + readChunk vol within out len ≠ vol.clusterSize := fun full =>
              notFull ⟨rest, full⟩
            omega

theorem fillGap_rounds (write : Node → Nat → List Byte → Code (Int × Node)) {fuel more : Nat} (node : Node)
    (pos : Nat) {gap : Nat} (enough : gap ≤ fuel) (enoughMore : gap ≤ more) :
    fillGap write fuel node pos gap = fillGap write more node pos gap := by
  induction fuel generalizing more node pos gap with
  | zero =>
    have finished : gap = 0 := by omega
    subst finished
    cases more with
    | zero => rfl
    | succ more => rw [fillGap, fillGap, if_pos rfl]
  | succ fuel ih =>
    cases more with
    | zero =>
      have finished : gap = 0 := by omega
      subst finished
      rw [fillGap, fillGap, if_pos rfl]
    | succ more =>
      rw [fillGap, fillGap]
      by_cases finished : gap = 0
      · rw [if_pos finished, if_pos finished]
      · rw [if_neg finished, if_neg finished]
        refine Program.bind_congr fun result => ?_
        obtain ⟨r, written⟩ := result
        dsimp only
        have shorter : gap - min gap fsSectorSize < gap := by
          unfold fsSectorSize
          omega
        split
        · rfl
        · exact ih written _ (by omega) (by omega)

def Fails (result : Except Int Node) : Prop := ∀ code, result = .error code → code < 0

theorem takeCluster_returns (node : Node) : (takeCluster vol node).Returns fun result =>
    Fails result ∧ ∀ taken, result = .ok taken → taken.size = node.size := by
  unfold takeCluster
  have kept : ∀ other : Node, other.size = node.size → Fails (.ok other) ∧
      ∀ taken, Except.ok other = (.ok taken : Except Int Node) → taken.size = node.size := by
    intro other same
    refine ⟨fun code isCode => by contradiction, fun taken isTaken => ?_⟩
    cases isTaken
    exact same
  have failed : ∀ code : Int, code < 0 → Fails (.error code) ∧
      ∀ taken, Except.error code = (.ok taken : Except Int Node) → taken.size = node.size := by
    intro code negative
    refine ⟨fun other isOther => ?_, fun taken isTaken => by contradiction⟩
    cases isOther
    exact negative
  split
  · exact kept node rfl
  · refine (Program.returns_true _).bind fun found _ => ?_
    cases found with
    | none => exact failed abiEnospc (by decide)
    | some c =>
      refine (Program.returns_true _).bind fun set _ => ?_
      cases set with
      | false => exact failed abiEio (by decide)
      | true => exact kept { node with cluster := c } rfl

theorem writeLoop_returns (fuel cluster within : Nat) (src : List Byte) :
    (writeLoop vol fuel cluster within src).Returns fun result => ∀ code, result = .error code → code < 0 := by
  induction fuel generalizing cluster within src with
  | zero => exact fun code isCode => by contradiction
  | succ fuel ih =>
    rw [writeLoop]
    split
    · exact fun code isCode => by contradiction
    · refine (Program.returns_true _).bind fun sbuf _ => ?_
      cases sbuf with
      | none =>
        intro code isCode
        cases isCode
        decide
      | some sbuf =>
        refine (Program.returns_true _).bind fun written _ => ?_
        cases written with
        | false =>
          intro code isCode
          cases isCode
          decide
        | true =>
          simp only [Bool.not_true, Bool.false_eq_true, if_false]
          split
          · refine (Program.returns_true _).bind fun next _ => ?_
            cases next with
            | none =>
              intro code isCode
              cases isCode
              decide
            | some next => exact ih _ _ _
          · exact ih _ _ _

theorem fsNodeSyncEntry_returns (node : Node) : (fsNodeSyncEntry vol node).Returns fun r => r = 0 ∨ r < 0 := by
  unfold fsNodeSyncEntry
  split
  · exact .inr (by decide)
  · split
    · exact .inr (by decide)
    · refine (Program.returns_true _).bind fun place _ => ?_
      cases place with
      | none => exact .inr (by decide)
      | some place =>
        refine (Program.returns_true _).bind fun buf _ => ?_
        cases buf with
        | none => exact .inr (by decide)
        | some buf =>
          refine (Program.returns_true _).bind fun written _ => ?_
          cases written with
          | false => exact .inr (by decide)
          | true => exact .inl rfl

variable {buf : List Byte}

theorem writeBody_returns (node : Node) (grows : node.size + buf.length < 2 ^ 32)
    (some_ : buf ≠ []) : (writeBody vol node node.size buf).Returns fun result =>
      result.1 < 0 ∨ result.2.size = node.size + buf.length := by
  have stop : u32 (node.size + buf.length) = node.size + buf.length := mod_eq_of_lt grows
  have longer := length_pos_iff.mpr some_
  refine (takeCluster_returns node).bind fun taken isTaken => ?_
  cases taken with
  | error code => exact .inl (isTaken.1 code rfl)
  | ok taken =>
    have size := isTaken.2 taken rfl
    refine (Program.returns_true _).bind fun found _ => ?_
    cases found with
    | none => exact .inl (show abiEnospc < 0 by decide)
    | some cluster =>
      refine (writeLoop_returns _ _ _ _).bind fun written fails => ?_
      cases written with
      | error code => exact .inl (fails code rfl)
      | ok done =>
        dsimp only
        rw [if_pos (by omega)]
        refine (fsNodeSyncEntry_returns _).bind fun r isR => ?_
        exact .inr stop

variable {node : Node} {offset : Nat}

theorem writeInner_noGap (depth : Nat) (buf : List Byte) (noGap : offset ≤ node.size) :
    writeInner vol (depth + 1) node offset buf = writeInner vol 1 node offset buf := by
  rw [writeInner, writeInner]
  simp only [if_neg (Nat.not_lt.mpr noGap)]

theorem writeInner_returns (grows : node.size + buf.length < 2 ^ 32)
    (some_ : buf ≠ []) : (writeInner vol 1 node node.size buf).Returns fun result =>
      result.1 < 0 ∨ result.2.size = node.size + buf.length := by
  rw [writeInner, if_neg some_, if_neg (Nat.lt_irrefl _)]
  split
  · exact .inl (show abiEinval < 0 by decide)
  · split
    · exact .inl (show abiEisdir < 0 by decide)
    · exact writeBody_returns node grows some_

theorem fillGap_depth (depth fuel : Nat) (node : Node) {gap : Nat} (fits : node.size + gap < 2 ^ 32) :
    fillGap (writeInner vol (depth + 1)) fuel node node.size gap =
      fillGap (writeInner vol 1) fuel node node.size gap := by
  induction fuel generalizing node gap with
  | zero => rfl
  | succ fuel ih =>
    rw [fillGap, fillGap]
    by_cases finished : gap = 0
    · rw [if_pos finished, if_pos finished]
    · rw [if_neg finished, if_neg finished]
      dsimp only
      rw [writeInner_noGap depth _ (Nat.le_refl _)]
      have chunk : 0 < min gap fsSectorSize ∧ min gap fsSectorSize ≤ gap := by
        unfold fsSectorSize
        omega
      refine Program.bind_congr_of_returns (writeInner_returns (by rw [length_replicate]; omega)
        (ne_nil_of_length_pos (by rw [length_replicate]; omega))) fun result grown => ?_
      obtain ⟨r, written⟩ := result
      dsimp only at grown ⊢
      split
      · rfl
      · rename_i succeeds
        have size := grown.resolve_left succeeds
        rw [length_replicate] at size
        have pos : u32 (node.size + min gap fsSectorSize) = written.size := by
          rw [size]
          exact mod_eq_of_lt (by omega)
        rw [pos]
        exact ih written (by omega)

theorem writeInner_depth (depth : Nat) (node : Node) (buf : List Byte) (small : offset < 2 ^ 32) :
    writeInner vol (depth + 2) node offset buf = fsNodeWriteInner vol node offset buf := by
  rw [fsNodeWriteInner, writeInner, writeInner]
  by_cases gap : node.size < offset
  · simp only [if_pos gap]
    rw [fillGap_depth depth _ node (by omega)]
  · simp only [if_neg gap]

/-! The property. -/

/-- The nodes that `parse_dirent` makes of directory entries: a start cluster that is not
valid is replaced by 0. -/
def Starts (vol : Volume) (node : Node) : Prop := node.cluster = 0 ∨ vol.clusterOk node.cluster = true

/-- Reading and writing end. -/
structure Terminates (vol : Volume) : Prop where
  reads : ∀ extra node offset out len cluster,
    readLoop vol (min len (node.size - offset) + extra) cluster (offset % vol.clusterSize) out
      (min len (node.size - offset)) = fatReadLoop vol node offset out len cluster
  writes : ∀ extra cluster within src,
    writeLoop vol (src.length + extra) cluster within src = writeLoop vol src.length cluster within src
  gaps : ∀ extra write node pos gap, fillGap write (gap + extra) node pos gap = fillGap write gap node pos gap
  calls : ∀ extra node offset buf, offset < 2 ^ 32 →
    writeInner vol (extra + 2) node offset buf = fsNodeWriteInner vol node offset buf

theorem Volume.Accepted.terminates (accepted : vol.Accepted) : Terminates vol where
  reads extra node offset out len cluster := by
    refine readLoop_rounds cluster out (Nat.le_add_right _ _) (Nat.le_refl _) fun _ => mod_lt _ ?_
    exact Nat.mul_pos accepted.perCluster.1 (by decide)
  writes extra cluster within src := writeLoop_rounds cluster within (Nat.le_add_right _ _) (Nat.le_refl _)
  gaps extra write node pos gap := fillGap_rounds write node pos (Nat.le_add_right _ _) (Nat.le_refl _)
  calls extra node offset buf small := writeInner_depth extra node buf small

/-- A device with the same table as another; everything else on it may differ. -/
def Volume.SameTable (vol : Volume) (disk other : Disk) : Prop :=
  ∀ lba, vol.InFat lba → ∀ index < fsSectorSize,
    other.bytes (fsSectorSize * lba + index) = disk.bytes (fsSectorSize * lba + index)

/-- Whatever the size in the entry of a file and whatever else is on the device, reading and
writing the file ends and takes only sectors of valid clusters as file data. -/
def FileContained (vol : Volume) (disk : Disk) (file : Node) : Prop :=
  Terminates vol ∧ ∀ fs : Fs, fs.Coherent → fs.vol = vol → vol.SameTable disk fs.disk →
    ∀ size < 2 ^ 32, ∀ offset < 2 ^ 32,
      (∀ cpu address out len, ∀ access ∈ fatReadTrace fs cpu address { file with size } offset out len,
        access.Contained vol) ∧
      ∀ buf, ∀ access ∈ (fsNodeWriteInner vol { file with size } offset buf).trace Fs.answer fs, access.Contained vol

theorem Volume.SameTable.entry {other : Disk} (same : vol.SameTable disk other)
    (covered : vol.InFat (vol.fatLba cluster)) : vol.entry other cluster = vol.entry disk cluster := by
  have addr := vol.entryAddr_eq cluster
  have inside := Volume.fatOffset_le cluster
  rw [Volume.entry, Volume.entry, ← addr, Bytes.rd16, Bytes.rd16, same _ covered _ (by omega), Nat.add_assoc,
    same _ covered _ (by omega)]

variable {fs : Fs}

theorem fatReadStart_ok {after : Fs} (coherent : fs.Coherent) {cpu : Cpu} {address : Nat}
    {len : Nat} (start : fatReadStart fs cpu address node offset len = (.ok cluster, after)) :
    after.Coherent ∧ after.vol = fs.vol ∧ after.disk = fs.disk ∧ fs.vol.clusterOk node.cluster = true ∧
      fs.vol.nth fs.disk (offset / fs.vol.clusterSize) node.cluster = some cluster := by
  obtain ⟨same, coherentAfter⟩ := coherent.fatReadCluster cpu (node.key address) (offset / fs.vol.clusterSize)
  obtain ⟨volAfter, diskAfter⟩ := coherent.fatReadCluster_keeps cpu (node.key address) (offset / fs.vol.clusterSize)
  unfold fatReadStart at start
  split at start
  · cases start
  · split at start
    · cases start
    · split at start
      · cases start
      · split at start
        · cases start
        · split at start
          · cases start
          · rename_i notBad
            have ok : fs.vol.clusterOk node.cluster = true := by simpa using notBad
            split at start
            · cases start
            · rename_i found next read
              cases start
              rw [read] at same coherentAfter volAfter diskAfter
              refine ⟨coherentAfter, volAfter, diskAfter, ok, ?_⟩
              have first : fs.vol.clusterOk (node.key address).firstCluster = true := ok
              unfold Fs.walk at same
              rw [run_clusterNth, if_pos first] at same
              exact same.symm

namespace Volume.Sane

variable (sane : vol.Sane)

include sane

theorem fileContained {file : Node} (entry : vol.EntryApart disk file.dirCluster)
    (chained : file.cluster ≠ 0 → vol.Chained disk file.cluster) : FileContained vol disk file := by
  refine ⟨sane.accepted.terminates, fun fs coherent isVol same size _ offset _ => ?_⟩
  have tracks : vol.Tracks file.dirCluster file.start fs.disk := by
    have onDisk : vol.Tracks file.dirCluster file.start disk := by
      refine ⟨entry, fun cluster isStart => ?_⟩
      obtain ⟨some_, rfl⟩ := isStart
      exact chained some_
    exact onDisk.congr fun _ covered => same.entry covered
  refine ⟨fun cpu address out len => ?_, fun buf => ?_⟩
  · unfold fatReadTrace
    cases start : fatReadStart fs cpu address { file with size } offset len with
    | mk result after =>
      cases result with
      | error value => exact fun access member => absurd member not_mem_nil
      | ok cluster =>
        obtain ⟨coherentAfter, volAfter, diskAfter, ok, reached⟩ := fatReadStart_ok coherent start
        rw [isVol] at volAfter ok reached
        have some_ : file.cluster ≠ 0 := by
          intro zero
          rw [show ({ file with size } : Node).cluster = file.cluster from rfl, zero] at ok
          exact absurd (Volume.clusterOk_iff.mp ok).1 (by decide)
        have here := (tracks.chained file.cluster ⟨some_, rfl⟩).nth reached
        have tracksHere : vol.Tracks file.dirCluster {cluster} after.disk := by
          rw [diskAfter]
          refine ⟨tracks.entry, fun other isHere => ?_⟩
          cases isHere
          exact here
        have mirrors := coherentAfter.mirrors
        rw [volAfter] at mirrors
        obtain ⟨accesses, -⟩ := sane.contains_readLoop (min len (size - offset)) out here.clusterOk
          (fun _ => mod_lt offset (Nat.mul_pos sane.accepted.perCluster.1 (by decide))) _
          (Set.Subset.refl _) after.disk tracksHere
        obtain ⟨-, -, trace⟩ := mirrors.run (fatReadLoop vol { file with size } offset out len cluster)
          fun access member => (accesses access member).2
        intro access member
        dsimp only at member
        rw [volAfter, trace] at member
        exact (accesses access member).1
  · obtain ⟨accesses, -⟩ := sane.contains_writeInner 2 { file with size } offset buf _ (Set.Subset.refl _) fs.disk tracks
    have mirrors := coherent.mirrors
    rw [isVol] at mirrors
    obtain ⟨-, -, trace⟩ := mirrors.run (fsNodeWriteInner vol { file with size } offset buf)
      fun access member => (accesses access member).2
    intro access member
    rw [trace] at member
    exact (accesses access member).1

end Volume.Sane

/-! The other way round. -/

def Disk.complete (disk : Disk) : Disk := { disk with sectorCount := 2 ^ 33, readOnly := false }

/-- The file system just after a mount, with nothing in its caches. -/
def coldFs (vol : Volume) (disk : Disk) : Fs := { Fs.boot fun _ => disk with vol }

theorem coldFs_coherent (low : vol.fatStart < 65536) (disk : Disk) : (coldFs vol disk).Coherent where
  fat := fun warm => absurd rfl warm
  dir := fun warm => absurd rfl warm
  read := fun _ _ _ isKey => absurd isKey.symm (Option.some_ne_none _)
  low := low

/-- Links followed one after the other, without a check of where the last one leads. -/
inductive Volume.Hops (vol : Volume) (disk : Disk) : Nat → Nat → Nat → Prop
  | here (cluster : Nat) : Hops vol disk 0 cluster cluster
  | next {count cluster last : Nat} (ok : vol.clusterOk cluster = true) (readable : vol.Readable disk cluster)
      (inner : vol.entry disk cluster < fsEocMin) (rest : Hops vol disk count (vol.entry disk cluster) last) :
      Hops vol disk (count + 1) cluster last

theorem run_fatEntry_fs (coherent : fs.Coherent) (cluster : Nat) :
    ∃ after : Fs, (fatEntry fs.vol cluster).run Fs.answer fs =
        (if fs.vol.clusterOk cluster = true ∧ fs.vol.Readable fs.disk cluster then
          some (fs.vol.entry fs.disk cluster) else none, after) ∧
      after.Coherent ∧ after.vol = fs.vol ∧ after.disk = fs.disk := by
  obtain ⟨cache, ran, showing⟩ := run_of_only (fatEntry_only cluster) coherent.fat coherent.low
  rw [run_fatEntry] at ran
  exact ⟨_, ran, coherent.setFatCache showing, rfl, rfl⟩

theorem run_extendTo (coherent : fs.Coherent) {count start last : Nat} (hops : fs.vol.Hops fs.disk count start last) :
    ∃ after : Fs, (extendTo fs.vol count start).run Fs.answer fs = (some last, after) := by
  induction count generalizing fs start with
  | zero =>
    cases hops
    exact ⟨fs, rfl⟩
  | succ count ih =>
    cases hops with
    | next ok readable inner rest =>
      obtain ⟨middle, ran, coherentMiddle, volMiddle, diskMiddle⟩ := run_fatEntry_fs coherent start
      rw [if_pos ⟨ok, readable⟩] at ran
      have extended : (fatExtend fs.vol start).run Fs.answer fs = (some (fs.vol.entry fs.disk start), middle) := by
        unfold fatExtend
        rw [Program.run_bind, ran]
        dsimp only
        rw [if_pos inner]
        rfl
      rw [extendTo, Program.run_bind, extended]
      rw [← volMiddle, ← diskMiddle] at rest
      obtain ⟨after, reached⟩ := ih coherentMiddle rest
      rw [volMiddle, diskMiddle] at reached
      exact ⟨after, reached⟩

theorem writeLoop_reads (fs : Fs) (cluster : Nat) : .blockRead .data (u32 (vol.clusterLba cluster)) 1 ∈
    (writeLoop vol 1 cluster 0 [0#8]).trace Fs.answer fs := by
  rw [writeLoop, if_neg (cons_ne_nil _ _)]
  dsimp only
  rw [Program.trace_bind, Nat.zero_div, Nat.add_zero]
  refine mem_append_left _ ?_
  rw [fillSector, if_neg (by decide), Program.trace_bind]
  exact mem_append_left _ (List.mem_cons_self ..)

theorem write_reaches (coherent : fs.Coherent) (isVol : fs.vol = vol) (mounted : vol.mounted = true)
    (some_ : 0 < vol.clusterSize) {file : Node} (isFile : file.isDir = false) (start : file.cluster ≠ 0)
    {count last : Nat} (hops : vol.Hops fs.disk count file.cluster last) (inside : count * vol.clusterSize ≤ file.size) :
    .blockRead .data (u32 (vol.clusterLba last)) 1 ∈
      (fsNodeWriteInner vol file (count * vol.clusterSize) [0#8]).trace Fs.answer fs := by
  subst isVol
  obtain ⟨after, reached⟩ := run_extendTo coherent hops
  have body : fsNodeWriteInner fs.vol file (count * fs.vol.clusterSize) [0#8] =
      writeBody fs.vol file (count * fs.vol.clusterSize) [0#8] := by
    rw [fsNodeWriteInner, writeInner, if_neg (by simp [mounted]), if_neg (by simp [isFile]),
      if_neg (cons_ne_nil _ _), if_neg (Nat.not_lt.mpr inside)]
  have take : takeCluster fs.vol file = pure (.ok file) := by
    unfold takeCluster
    rw [if_pos start]
  rw [body, writeBody, take]
  change _ ∈ Program.trace Fs.answer (extendTo fs.vol (count * fs.vol.clusterSize / fs.vol.clusterSize) file.cluster >>= _) fs
  rw [Nat.mul_div_cancel _ some_, Program.trace_bind, reached]
  refine mem_append_right _ ?_
  dsimp only
  rw [Program.trace_bind]
  refine mem_append_left _ ?_
  rw [mul_mod_left]
  exact writeLoop_reads after last

/-! Where links lead, as long as they lie in the table. -/

namespace Volume

/-- Links of valid clusters whose entries lie in the table. -/
inductive Leads (vol : Volume) (disk : Disk) (start : Nat) : Nat → Nat → Prop
  | here : Leads vol disk start 0 start
  | next {count cluster : Nat} (earlier : Leads vol disk start count cluster) (ok : vol.clusterOk cluster = true)
      (covered : vol.InFat (vol.fatLba cluster)) (inner : vol.entry disk cluster < fsEocMin) :
      Leads vol disk start (count + 1) (vol.entry disk cluster)

variable {start : Nat}

theorem Hops.snoc {count last : Nat} (hops : vol.Hops disk count start last) (ok : vol.clusterOk last = true)
    (readable : vol.Readable disk last) (inner : vol.entry disk last < fsEocMin) :
    vol.Hops disk (count + 1) start (vol.entry disk last) := by
  induction hops with
  | here cluster => exact .next ok readable inner (.here _)
  | next okHere readableHere innerHere _ ih => exact .next okHere readableHere innerHere (ih ok readable inner)

theorem Leads.hops {count : Nat} {other : Disk} (leads : vol.Leads disk start count cluster)
    (same : vol.SameTable disk other) (readable : ∀ cluster, vol.clusterOk cluster = true → vol.Readable other cluster) :
    vol.Hops other count start cluster := by
  induction leads with
  | here => exact .here _
  | next earlier ok covered inner ih =>
    rw [← same.entry covered] at inner ⊢
    exact ih.snoc ok (readable _ ok) inner

theorem Leads.unique {count other : Nat} (leads : vol.Leads disk start count cluster)
    (also : vol.Leads disk start count other) : cluster = other := by
  induction leads generalizing other with
  | here =>
    cases also
    rfl
  | next earlier ok covered inner ih =>
    cases also with
    | next earlierToo _ _ _ => rw [ih earlierToo]

theorem Leads.earlier {count fewer : Nat} (leads : vol.Leads disk start count cluster) (less : fewer ≤ count) :
    ∃ before, vol.Leads disk start fewer before := by
  induction leads with
  | here =>
    cases le_zero.mp less
    exact ⟨start, .here⟩
  | next earlier ok covered inner ih =>
    rcases Nat.eq_or_lt_of_le less with rfl | below
    · exact ⟨_, .next earlier ok covered inner⟩
    · exact ih (le_of_lt_succ below)

theorem Leads.shortcut {first second more : Nat} {last : Nat} (once : vol.Leads disk start first cluster)
    (twice : vol.Leads disk start second cluster) (leads : vol.Leads disk start (second + more) last) :
    vol.Leads disk start (first + more) last := by
  induction more generalizing last with
  | zero => exact twice.unique leads ▸ once
  | succ more ih =>
    cases leads with
    | next earlier ok covered inner => exact .next (ih earlier) ok covered inner

def Bad (vol : Volume) (cluster : Nat) : Prop := vol.clusterOk cluster = false ∨ ¬ vol.InFat (vol.fatLba cluster)

theorem exists_bad (open_ : ¬ vol.Chained disk start) :
    ∃ count last, vol.Leads disk start count last ∧ vol.Bad last ∧ count ≤ vol.clusterCount := by
  have some_ : ∃ count, ∃ last, vol.Leads disk start count last ∧ vol.Bad last := by
    by_contra none_
    push Not at none_
    refine open_ ⟨fun cluster => ∃ count, vol.Leads disk start count cluster, ⟨?_, ?_, ?_⟩, 0, .here⟩
    · rintro cluster ⟨count, leads⟩
      have good := none_ count cluster leads
      unfold Bad at good
      push Not at good
      simpa using good.1
    · rintro cluster ⟨count, leads⟩
      have good := none_ count cluster leads
      unfold Bad at good
      push Not at good
      exact good.2
    · rintro cluster ⟨count, leads⟩
      have good := none_ count cluster leads
      unfold Bad at good
      push Not at good
      by_cases inner : vol.entry disk cluster < fsEocMin
      · exact .inl ⟨count + 1, .next leads (by simpa using good.1) good.2 inner⟩
      · exact .inr (Nat.not_lt.mp inner)
  classical
  obtain ⟨last, leads, bad⟩ := Nat.find_spec some_
  refine ⟨find some_, last, leads, bad, ?_⟩
  have before : ∀ count < find some_, ∃ cluster, vol.Leads disk start count cluster ∧ vol.clusterOk cluster = true := by
    intro count below
    obtain ⟨cluster, earlier⟩ := leads.earlier below.le
    refine ⟨cluster, earlier, ?_⟩
    by_contra notOk
    exact Nat.find_min some_ below ⟨cluster, earlier, .inl (by simpa using notOk)⟩
  choose! at_ walk using before
  have once : Set.InjOn at_ (Finset.range (find some_)) := by
    intro first belowFirst second belowSecond same
    have lowFirst := Finset.mem_range.mp (mem_coe.mp belowFirst)
    have lowSecond := Finset.mem_range.mp (mem_coe.mp belowSecond)
    by_contra differ
    obtain ⟨low, high, isLow, isHigh, less, belowHigh⟩ : ∃ low high, vol.Leads disk start low (at_ first) ∧
        vol.Leads disk start high (at_ first) ∧ low < high ∧ high < find some_ := by
      rcases Nat.lt_or_gt_of_ne differ with before | after
      · exact ⟨first, second, (walk first lowFirst).1, same ▸ (walk second lowSecond).1, before, lowSecond⟩
      · exact ⟨second, first, same ▸ (walk second lowSecond).1, (walk first lowFirst).1, after, lowFirst⟩
    have same : high + (find some_ - high) = find some_ := by omega
    have shorter := isLow.shortcut isHigh (same.symm ▸ leads)
    exact Nat.find_min some_ (by omega) ⟨last, shorter, bad⟩
  have maps : ∀ count ∈ Finset.range (find some_), at_ count ∈ Finset.Ico 2 (2 + vol.clusterCount) := by
    intro count below
    obtain ⟨low, -, -, high⟩ := clusterOk_iff.mp (walk count (Finset.mem_range.mp below)).2
    exact mem_Ico.mpr ⟨low, high⟩
  have bound := card_le_card_of_injOn at_ maps once
  rwa [card_range, card_Ico, Nat.add_sub_cancel_left] at bound

theorem Accepted.not_inData (accepted : vol.Accepted) (notOk : vol.clusterOk cluster = false)
    (inner : cluster < fsEocMin) : ¬ vol.InData (u32 (vol.clusterLba cluster)) := by
  rintro ⟨valid, s, ok, bound, same⟩
  obtain ⟨value, -⟩ := accepted.clusterLba ok
  obtain ⟨low, good, -, high⟩ := clusterOk_iff.mp ok
  have count := accepted.count.2
  have perCluster := accepted.perCluster
  have start : vol.dataStart < 2 ^ 32 := by
    rw [accepted.dataStart]
    exact mod_lt _ (by decide)
  have small : (valid - fsFirstCluster) * vol.sectorsPerCluster ≤ 65536 * 128 :=
    mul_le_mul (by unfold fsBadCluster at good; omega) perCluster.2
  rw [value] at same
  unfold Volume.clusterLba at same
  by_cases inTable : fsFirstCluster ≤ cluster
  · have index : u32 (cluster + 2 ^ 32 - fsFirstCluster) = cluster - fsFirstCluster := by
      unfold fsEocMin at inner
      unfold u32
      unfold fsFirstCluster at inTable ⊢
      omega
    have smallHere : (cluster - fsFirstCluster) * vol.sectorsPerCluster ≤ 65536 * 128 :=
      mul_le_mul (by unfold fsEocMin at inner; omega) perCluster.2
    rw [index] at same
    have place : (cluster - fsFirstCluster) * vol.sectorsPerCluster =
        (valid - fsFirstCluster) * vol.sectorsPerCluster + s := by
      unfold u32 at same
      omega
    have sameIndex : cluster - fsFirstCluster = valid - fsFirstCluster := by
      have divided := congrArg (· / vol.sectorsPerCluster) place
      rwa [Nat.mul_div_cancel _ perCluster.1, Nat.mul_comm (valid - fsFirstCluster),
        mul_add_div perCluster.1, div_eq_of_lt bound, Nat.add_zero] at divided
    have isValid : cluster = valid := by omega
    rw [isValid, ok] at notOk
    contradiction
  · have below : cluster = 0 ∨ cluster = 1 := by
      unfold fsFirstCluster at inTable
      omega
    unfold fsFirstCluster at same small
    unfold u32 at same
    have before : ∀ k, 1 ≤ k → k ≤ 2 → (vol.dataStart + (2 ^ 32 - k) * vol.sectorsPerCluster) % 2 ^ 32 =
        (vol.dataStart + 2 ^ 32 - k * vol.sectorsPerCluster) % 2 ^ 32 := by
      intro k some_ few
      have whole : vol.dataStart + (2 ^ 32 - k) * vol.sectorsPerCluster =
          vol.dataStart + 2 ^ 32 - k * vol.sectorsPerCluster + 2 ^ 32 * (vol.sectorsPerCluster - 1) := by
        obtain rfl | rfl : k = 1 ∨ k = 2 := by omega
        · omega
        · omega
      rw [whole, add_mul_mod_self_left]
    rcases below with rfl | rfl
    · rw [show (0 + 2 ^ 32 - 2) % 2 ^ 32 = 2 ^ 32 - 2 by decide, before 2 (by decide) (by decide)] at same
      omega
    · rw [show (1 + 2 ^ 32 - 2) % 2 ^ 32 = 2 ^ 32 - 1 by decide, before 1 (by decide) (by decide)] at same
      omega

theorem complete_readable (accepted : vol.Accepted) (disk : Disk) (ok : vol.clusterOk cluster = true) :
    vol.Readable disk.complete cluster := by
  obtain ⟨-, good, -⟩ := clusterOk_iff.mp ok
  have reserved := accepted.reserved.2
  unfold fsBadCluster at good
  simp only [Readable, Disk.blockValid, Disk.complete, fatLba, fsSectorSize, Bool.and_eq_true]
  refine ⟨⟨by decide, decide_eq_true ?_⟩, decide_eq_true ?_⟩
  · omega
  · omega

theorem Accepted.chained_of_contained (accepted : vol.Accepted) {file : Node} (isFile : file.isDir = false)
    (some_ : file.cluster ≠ 0) (starts : vol.clusterOk file.cluster = true) (contained : FileContained vol disk file) :
    vol.Chained disk file.cluster := by
  by_contra open_
  obtain ⟨count, last, leads, bad, soon⟩ := exists_bad open_
  have clusterSize : 0 < vol.clusterSize ∧ vol.clusterSize ≤ 65536 := by
    have perCluster := accepted.perCluster
    unfold Volume.clusterSize fsSectorSize
    omega
  -- a device on which the links lead to a cluster that is not valid
  obtain ⟨device, hop, wrong, same, hops, notOk, inner, few⟩ : ∃ device hop wrong, vol.SameTable disk device ∧
      vol.Hops device hop file.cluster wrong ∧ vol.clusterOk wrong = false ∧ wrong < fsEocMin ∧
      hop ≤ vol.clusterCount + 1 := by
    by_cases ok : vol.clusterOk last = true
    · have uncovered := bad.resolve_left (by simp [ok])
      have same : vol.SameTable disk (disk.patch (vol.entryAddr last) (Bytes.le16 0)).complete := by
        intro lba covered index bound
        refine Bytes.store_outside ?_
        have addr := vol.entryAddr_eq last
        have inside := fatOffset_le last
        have differ : lba ≠ vol.fatLba last := fun here => uncovered (here ▸ covered)
        rw [Bytes.length_le16]
        unfold fsSectorSize at *
        omega
      have cleared : vol.entry (disk.patch (vol.entryAddr last) (Bytes.le16 0)).complete last = 0 :=
        entry_patch_self (by decide)
      have hops := (leads.hops same fun _ => complete_readable accepted _).snoc ok (complete_readable accepted _ ok)
        (by rw [cleared]; decide)
      rw [cleared] at hops
      exact ⟨_, _, 0, same, hops, by simp [clusterOk, fsFirstCluster], by decide, by omega⟩
    · refine ⟨disk.complete, count, last, fun _ _ _ _ => rfl, leads.hops (fun _ _ _ _ => rfl)
        fun _ => complete_readable accepted disk, by simpa using ok, ?_, by omega⟩
      cases leads with
      | here => exact absurd starts ok
      | next _ _ _ inner => exact inner
  have low := accepted.reserved.2
  have room : hop * vol.clusterSize < 2 ^ 32 := by
    have count := accepted.count.2
    unfold fsBadCluster at count
    calc hop * vol.clusterSize ≤ 65527 * 65536 := mul_le_mul (by omega) clusterSize.2
      _ < 2 ^ 32 := by decide
  obtain ⟨size, large, small⟩ : ∃ size, hop * vol.clusterSize ≤ size ∧ size < 2 ^ 32 := ⟨_, le_rfl, room⟩
  have isVol : (coldFs vol device).vol = vol := rfl
  have isFileToo : ({ file with size } : Node).isDir = false := isFile
  have reaches := write_reaches (coldFs_coherent low device) isVol accepted.mounted clusterSize.1 isFileToo some_ hops large
  have good := (contained.2 (coldFs vol device) (coldFs_coherent low device) rfl same size small
    (hop * vol.clusterSize) room).2 [0#8] _ reaches
  have inData := (good 0 Nat.one_pos).1
  rw [Nat.add_zero] at inData
  exact accepted.not_inData notOk inner inData

theorem readLoop_reads (vol : Volume) (fs : Fs) (cluster s : Nat) :
    .blockRead .data (u32 (vol.clusterLba cluster + s)) 1 ∈
      (readLoop vol 1 cluster (s * fsSectorSize) 1 1).trace Fs.answer fs := by
  have single : readSectors vol (s * fsSectorSize) 1 1 = 1 := if_neg fun direct => absurd direct.2.1 (by decide)
  rw [readLoop, if_neg Nat.one_ne_zero]
  dsimp only
  rw [single, Nat.mul_div_cancel _ (by decide), Program.trace_bind]
  exact mem_append_left _ (List.mem_cons_self ..)

theorem fatReadStart_of_cluster {fs after : Fs} {cpu : Cpu} {address offset len : Nat} {node : Node}
    (mounted : fs.vol.mounted = true) (isFile : node.isDir = false) (some_ : len ≠ 0) (inside : offset < node.size)
    (ok : fs.vol.clusterOk node.cluster = true)
    (read : fs.fatReadCluster cpu (node.key address) (offset / fs.vol.clusterSize) = (some cluster, after)) :
    fatReadStart fs cpu address node offset len = (.ok cluster, after) := by
  unfold fatReadStart
  rw [if_neg (by simp [mounted]), if_neg (by simp [isFile]), if_neg some_, if_neg (Nat.not_le.mpr inside),
    if_neg (by simp [ok]), read]

theorem Accepted.separate_of_contained (accepted : vol.Accepted)
    (contained : ∀ file, Starts vol file → FileContained vol disk file) : vol.Separate := by
  rintro lba ⟨cluster, s, ok, bound, rfl⟩
  have low := accepted.reserved.2
  have perCluster := accepted.perCluster
  obtain ⟨value, inside⟩ := accepted.clusterLba ok
  have total := accepted.total
  have within : s * fsSectorSize < vol.clusterSize := Nat.mul_lt_mul_of_pos_right bound (by decide)
  have coherent := coldFs_coherent low disk
  obtain ⟨size, large, small⟩ : ∃ size, s * fsSectorSize < size ∧ size < 2 ^ 32 :=
    ⟨s * fsSectorSize + 1, by omega, by unfold fsSectorSize; omega⟩
  have sector : u32 (vol.clusterLba cluster + s) = vol.clusterLba cluster + s := by
    rw [u32, mod_eq_of_lt (by omega)]
  obtain ⟨after, start⟩ : ∃ after, fatReadStart (coldFs vol disk) 0 0 { dirNode cluster with isDir := false, size }
      (s * fsSectorSize) 1 = (.ok cluster, after) := by
    have first : ((coldFs vol disk).fatReadCluster 0 (Node.key { dirNode cluster with isDir := false, size } 0)
        (s * fsSectorSize / vol.clusterSize)).1 = some cluster := by
      rw [(coherent.fatReadCluster 0 _ _).1, div_eq_of_lt within, Fs.walk, run_clusterNth]
      exact if_pos ok
    exact ⟨_, fatReadStart_of_cluster accepted.mounted rfl Nat.one_ne_zero large ok (Prod.ext first rfl)⟩
  obtain ⟨-, volAfter, -⟩ := fatReadStart_ok coherent start
  have loop : fatReadLoop vol { dirNode cluster with isDir := false, size } (s * fsSectorSize) 1 1 cluster =
      readLoop vol 1 cluster (s * fsSectorSize) 1 1 := by
    have one : min 1 (size - s * fsSectorSize) = 1 := by omega
    simp only [fatReadLoop, one, mod_eq_of_lt within]
  have reaches : .blockRead .data (vol.clusterLba cluster + s) 1 ∈ fatReadTrace (coldFs vol disk) 0 0
      { dirNode cluster with isDir := false, size } (s * fsSectorSize) 1 1 := by
    have reads := readLoop_reads vol after cluster s
    rw [sector, ← loop] at reads
    unfold fatReadTrace
    rw [start]
    dsimp only
    rw [volAfter]
    exact reads
  have good := ((contained { dirNode cluster with isDir := false } (.inr ok)).2 (coldFs vol disk) coherent rfl
    (fun _ _ _ _ => rfl) size small (s * fsSectorSize) (by omega)).1 0 0 1 1 _ reaches
  exact (good 0 Nat.one_pos).2

end Volume

def smallVol : Volume := ⟨1, 1, 1, 16, 4103, 16, 1, 17, 1, 18, 4085, true⟩

theorem smallVol_separate : smallVol.Separate := by
  rintro lba ⟨cluster, s, ok, -, rfl⟩
  obtain ⟨low, good, -, -⟩ := Volume.clusterOk_iff.mp ok
  have value : smallVol.clusterLba cluster = cluster + 16 := by
    simp only [Volume.clusterLba, smallVol, u32, fsFirstCluster, fsBadCluster] at *
    omega
  rw [value]
  refine ⟨?_, ?_⟩
  · rintro ⟨sector, bound, same⟩
    simp only [smallVol, u32, fsFirstCluster] at *
    omega
  · rintro ⟨sector, bound, same⟩
    simp only [smallVol, u32, fsFirstCluster] at *
    omega

/-- A file in the first entry of the root directory of a volume whose clusters are all free. -/
def strayFile (cluster : Nat) : Node where
  name := [0x41#8]
  attr := 0x20#8
  cluster
  size := 1024
  isDir := false
  isRoot := false
  dirCluster := 0
  dirIndex := 0
  ops := .fat
  devId := 0

/-- The sectors that a trace writes as file data. -/
def dataWrites (trace : List Access) : List Nat :=
  trace.filterMap fun access => match access with
    | .sectorWrite .data lba _ => some lba
    | _ => none

end NyonOS.Fat
