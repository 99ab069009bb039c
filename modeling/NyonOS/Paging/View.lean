import NyonOS.Paging.Anon

namespace NyonOS.Paging

open Data
open Machine Function

/-! What user code sees in an address space whose pages have frames of their own. -/

variable {σ : Type} [FrameAllocator σ] {depth : Nat}

structure PageView where
  prot : Prot
  bytes : Page

abbrev View := Nat → Option PageView

/-- A frame stands behind a page. -/
structure Backed (nx : Bool) (machine : Machine σ depth) (root : PAddr) (page : Nat) (shown : PageView) (frame : PAddr) : Prop where
  aligned : Aligned frame
  loose : machine.Loose frame
  entry : machine.entry root page = anonWord nx shown.prot frame
  bytes : machine.bytes frame = shown.bytes

structure Shows (nx : Bool) (machine : Machine σ depth) (root : PAddr) (view : View) : Prop where
  tables : machine.Tables
  alive : machine.alive root = true
  cpuHasNx : machine.cpuHasNx = nx
  absent : ∀ {page}, UserPage depth page → view page = none → has (machine.entry root page) pagePresent = false
  backed : ∀ {page shown}, UserPage depth page → view page = some shown → ∃ frame, Backed nx machine root page shown frame
  apart : ∀ {page other shown seen frame}, UserPage depth page → UserPage depth other → view page = some shown →
    view other = some seen → Backed nx machine root page shown frame → Backed nx machine root other seen frame → page = other

variable {nx : Bool} {machine after : Machine σ depth} {root : PAddr} {view : View} {page : Nat} {shown : PageView}

theorem Backed.frameOf {frame : PAddr} (backed : Backed nx machine root page shown frame) :
    frameOf (machine.entry root page) = frame := by
  rw [backed.entry]
  exact anonWord_frame backed.aligned _ _

theorem Backed.present {frame : PAddr} (backed : Backed nx machine root page shown frame) :
    has (machine.entry root page) pagePresent = true := by
  rw [backed.entry]
  exact (anonWord_flags backed.aligned _ _).1

namespace Shows

section

variable (shows : Shows nx machine root view)
include shows

theorem none_of_free (user : UserPage depth page)
    (free : has (machine.entry root page) pagePresent = false) : view page = none := by
  cases viewed : view page with
  | none => rfl
  | some shown =>
    obtain ⟨frame, backed⟩ := shows.backed user viewed
    rw [backed.present] at free
    cases free

theorem map {np : PAddr} {taken : Machine σ depth} {prot : Prot} (user : UserPage depth page)
    (took : Taken machine np taken) (set : PageSet taken root page (anonWord nx prot np) after) :
    Shows nx after root (update view page (some ⟨prot, taken.bytes np⟩)) := by
  have loose : ∀ frame, after.Loose frame ↔ frame = np ∨ machine.Loose frame := fun frame =>
    (set.loose frame).trans ((shows.tables.alloc took.spaces took.answer).2 frame)
  have fresh : ¬ machine.Loose np := fun live => Frames.pmmAlloc_fresh took.answer live.1
  have elsewhere : ∀ {other}, UserPage depth other → other ≠ page → after.entry root other = machine.entry root other := by
    intro other low different
    rw [set.entries, if_neg, entry_congr took.spaces]
    rw [user.samePage low]
    exact fun same => different same.2.symm
  have here : after.entry root page = anonWord nx prot np := by rw [set.entries, if_pos ⟨rfl, rfl⟩]
  -- a page that was there keeps its frame, which is not the new one
  have old : ∀ {other seen}, UserPage depth other → other ≠ page → view other = some seen →
      ∃ frame, frame ≠ np ∧ Backed nx machine root other seen frame ∧ Backed nx after root other seen frame := by
    intro other seen low different viewed
    obtain ⟨frame, backed⟩ := shows.backed low viewed
    have another : frame ≠ np := by
      rintro rfl
      exact fresh backed.loose
    refine ⟨frame, another, backed, backed.aligned, (loose frame).mpr (.inr backed.loose), ?_, ?_⟩
    · rw [elsewhere low different, backed.entry]
    · rw [set.bytes, took.bytes frame another, backed.bytes]
  refine ⟨set.tables, ?_, ?_, ?_, ?_, ?_⟩
  · rw [set.alive, took.alive]
    exact shows.alive
  · rw [set.cpuHasNx, took.cpuHasNx, shows.cpuHasNx]
  · intro other low missing
    by_cases same : other = page
    · subst same
      rw [update_self] at missing
      cases missing
    · rw [update_of_ne same] at missing
      rw [elsewhere low same]
      exact shows.absent low missing
  · intro other seen low viewed
    by_cases same : other = page
    · subst same
      rw [update_self] at viewed
      cases viewed
      exact ⟨np, took.aligned, (loose np).mpr (.inl rfl), here, congrFun set.bytes np⟩
    · rw [update_of_ne same] at viewed
      obtain ⟨frame, -, -, backed⟩ := old low same viewed
      exact ⟨frame, backed⟩
  · intro one other shown seen frame lowOne lowOther viewedOne viewedOther backedOne backedOther
    by_cases first : one = page
    · by_cases second : other = page
      · rw [first, second]
      · rw [update_of_ne second] at viewedOther
        obtain ⟨kept, another, -, backed⟩ := old lowOther second viewedOther
        subst first
        have same : kept = np := by
          rw [← backed.frameOf, backedOther.frameOf, ← backedOne.frameOf, here]
          exact anonWord_frame took.aligned _ _
        exact absurd same another
    · rw [update_of_ne first] at viewedOne
      obtain ⟨kept, another, was, backed⟩ := old lowOne first viewedOne
      by_cases second : other = page
      · subst second
        have same : kept = np := by
          rw [← backed.frameOf, backedOne.frameOf, ← backedOther.frameOf, here]
          exact anonWord_frame took.aligned _ _
        exact absurd same another
      · rw [update_of_ne second] at viewedOther
        obtain ⟨also, -, wasOther, backedAlso⟩ := old lowOther second viewedOther
        have same : kept = also := by
          rw [← backed.frameOf, backedOne.frameOf, ← backedAlso.frameOf, backedOther.frameOf]
        exact shows.apart lowOne lowOther viewedOne viewedOther was (same ▸ wasOther)

theorem rewrite (user : UserPage depth page) (viewed : view page = some shown)
    (spaces : after.spaces = machine.spaces) (frames : after.frames = machine.frames) (cpuHasNx : after.cpuHasNx = machine.cpuHasNx)
    (others : ∀ frame, frame ≠ frameOf (machine.entry root page) → after.bytes frame = machine.bytes frame) :
    Shows nx after root (update view page (some ⟨shown.prot, after.bytes (frameOf (machine.entry root page))⟩)) := by
  obtain ⟨tables, loose⟩ := shows.tables.congr spaces frames
  have entries := entry_congr spaces
  obtain ⟨mine, behind⟩ := shows.backed user viewed
  -- what stands behind a page stands behind it still
  have kept : ∀ {other seen}, UserPage depth other → other ≠ page → view other = some seen → ∀ {frame},
      Backed nx machine root other seen frame → Backed nx after root other seen frame := by
    intro other seen low different viewedOther frame backed
    refine ⟨backed.aligned, (loose frame).mpr backed.loose, by rw [entries, backed.entry], ?_⟩
    rw [others, backed.bytes]
    rintro rfl
    rw [behind.frameOf] at backed
    exact different (shows.apart low user viewedOther viewed backed behind)
  have mineAfter : Backed nx after root page ⟨shown.prot, after.bytes (frameOf (machine.entry root page))⟩ mine :=
    ⟨behind.aligned, (loose mine).mpr behind.loose, by rw [entries, behind.entry], by rw [behind.frameOf]⟩
  -- and every page had something behind it that is the same frame
  have had : ∀ {other seen frame}, UserPage depth other → update view page
      (some ⟨shown.prot, after.bytes (frameOf (machine.entry root page))⟩) other = some seen →
      Backed nx after root other seen frame → ∃ was, view other = some was ∧ Backed nx machine root other was frame := by
    intro other seen frame low viewedOther backed
    have sameFrame : ∀ {was behindIt}, Backed nx machine root other was behindIt → behindIt = frame := by
      intro was behindIt before
      rw [← before.frameOf, ← backed.frameOf, entries]
    by_cases same : other = page
    · subst same
      exact ⟨shown, viewed, sameFrame behind ▸ behind⟩
    · rw [update_of_ne same] at viewedOther
      obtain ⟨old, before⟩ := shows.backed low viewedOther
      exact ⟨seen, viewedOther, sameFrame before ▸ before⟩
  refine ⟨tables, ?_, cpuHasNx.trans shows.cpuHasNx, ?_, ?_, ?_⟩
  · rw [Machine.alive, spaces]
    exact shows.alive
  · intro other low missing
    rw [entries]
    refine shows.absent low ?_
    by_cases same : other = page
    · subst same
      rw [update_self] at missing
      cases missing
    · rwa [update_of_ne same] at missing
  · intro other seen low viewedOther
    by_cases same : other = page
    · subst same
      rw [update_self] at viewedOther
      cases viewedOther
      exact ⟨mine, mineAfter⟩
    · rw [update_of_ne same] at viewedOther
      obtain ⟨frame, backed⟩ := shows.backed low viewedOther
      exact ⟨frame, kept low same viewedOther backed⟩
  · intro one other seenOne seenOther frame lowOne lowOther viewedOne viewedOther backedOne backedOther
    obtain ⟨wasOne, hadOne, beforeOne⟩ := had lowOne viewedOne backedOne
    obtain ⟨wasOther, hadOther, beforeOther⟩ := had lowOther viewedOther backedOther
    exact shows.apart lowOne lowOther hadOne hadOther beforeOne beforeOther

theorem anonPage {prot : Prot} (user : UserPage depth page)
    (done : (mapAnonPage root (page * pageSize) prot true machine).1 = true) :
    view page = none ∧
      Shows nx (mapAnonPage root (page * pageSize) prot true machine).2 root (update view page (some ⟨prot, fun _ => 0⟩)) := by
  rcases mapAnonPage_cases root (page * pageSize) prot true machine with none | ⟨np, taken, took, zeroed, result⟩
  · rw [none] at done
    cases done
  · obtain ⟨-, mapped⟩ := took.commit shows.tables shows.alive user prot
    rw [result] at done ⊢
    dsimp only at done mapped ⊢
    cases ok : (vmCommit root (page * pageSize) np 1 prot true taken).1 with
    | false => simp [ok] at done
    | true =>
      obtain ⟨free, set⟩ := mapped ok
      rw [shows.cpuHasNx] at set
      have next := shows.map user took set
      rw [zeroed] at next
      exact ⟨shows.none_of_free user free, next⟩

end

def withZeroed (view : View) (first pages : Nat) (prot : Prot) : View := fun page =>
  if first ≤ page ∧ page < first + pages then some ⟨prot, fun _ => 0⟩ else view page

theorem anonZeroed {prot : Prot} {first pages : Nat} (shows : Shows nx machine root view)
    (user : ∀ index < pages, UserPage depth (first + index))
    (done : (vmMapAnonZeroed root (first * pageSize) pages prot true machine).1 = true) :
    (∀ index < pages, view (first + index) = none) ∧
      Shows nx (vmMapAnonZeroed root (first * pageSize) pages prot true machine).2 root (withZeroed view first pages prot) := by
  have some : pages ≠ 0 := by
    rintro rfl
    cases done
  rw [vmMapAnonZeroed, if_neg some] at done ⊢
  have mapped := forUntil_range (fun index => mapAnonPage root (first * pageSize + index * pageSize) prot true) machine pages
    (fun count now => (∀ index < count, view (first + index) = none) ∧ Shows nx now root (withZeroed view first count prot))
    (fun _ _ => True) (by
      refine ⟨fun _ none => absurd none (Nat.not_lt_zero _), ?_⟩
      convert shows using 1
      funext page
      exact if_neg (by omega)) (fun index bound now reached goes => by
      obtain ⟨missing, shown⟩ := reached
      rw [← Nat.add_mul] at goes ⊢
      obtain ⟨none, next⟩ := shown.anonPage (user index bound) goes
      refine ⟨fun other inside => ?_, ?_⟩
      · by_cases last : other = index
        · rw [last, ← none]
          exact (if_neg (by omega)).symm
        · exact missing other (by omega)
      · convert next using 1
        funext page
        by_cases same : page = first + index
        · subst same
          rw [update_self]
          exact if_pos (by omega)
        · rw [update_of_ne same]
          unfold withZeroed
          congr 1
          simp only [eq_iff_iff]
          omega) (fun _ _ _ _ _ => trivial)
  rcases mapped with ⟨-, reached⟩ | ⟨stopped, -⟩
  · exact reached
  · rw [stopped] at done
    cases done

theorem refused {np : PAddr} {taken after given : Machine σ depth} (shows : Shows nx machine root view) (took : Taken machine np taken)
    (set : PageSet taken root page (taken.entry root page) after)
    (givenIs : given = { after with frames := after.frames.pmmFree np }) : Shows nx given root view := by
  have left := took.refused shows.tables set givenIs
  have fresh : ¬machine.Loose np := fun loose => Frames.pmmAlloc_fresh took.answer loose.1
  have looseAfter : ∀ frame, after.Loose frame ↔ frame = np ∨ machine.Loose frame := fun frame =>
    (set.loose frame).trans ((shows.tables.alloc took.spaces took.answer).2 frame)
  have loose : ∀ frame, given.Loose frame ↔ machine.Loose frame := by
    intro frame
    rw [(set.tables.free (by rw [givenIs]) ((looseAfter np).mpr (.inl rfl)) (by rw [givenIs])).2, looseAfter]
    constructor
    · rintro ⟨different, same | kept⟩
      · exact absurd same different
      · exact kept
    · intro kept
      refine ⟨?_, .inr kept⟩
      rintro rfl
      exact fresh kept
  have entries : ∀ number, given.entry root number = machine.entry root number := by
    intro number
    rw [left.entries]
    split
    · rename_i here
      exact entry_samePage here.2
    · rfl
  have back : ∀ {number shown frame}, Backed nx given root number shown frame ↔ Backed nx machine root number shown frame := by
    intro number shown frame
    constructor
    · intro backed
      have live := (loose frame).mp backed.loose
      refine ⟨backed.aligned, live, by rw [← entries, backed.entry], ?_⟩
      rw [← left.bytes, backed.bytes]
      rintro rfl
      exact fresh live
    · intro backed
      refine ⟨backed.aligned, (loose frame).mpr backed.loose, by rw [entries, backed.entry], ?_⟩
      rw [left.bytes, backed.bytes]
      rintro rfl
      exact fresh backed.loose
  refine ⟨left.tables, ?_, left.cpuHasNx.trans shows.cpuHasNx, fun user missing => ?_, fun user viewed => ?_, ?_⟩
  · rw [left.alive]
    exact shows.alive
  · rw [entries]
    exact shows.absent user missing
  · obtain ⟨frame, backed⟩ := shows.backed user viewed
    exact ⟨frame, back.mpr backed⟩
  · intro one other shown seen frame lowOne lowOther viewedOne viewedOther backedOne backedOther
    exact shows.apart lowOne lowOther viewedOne viewedOther (back.mp backedOne) (back.mp backedOther)

theorem anonPage_failed {prot : Prot} {zero : Bool} (shows : Shows nx machine root view) (user : UserPage depth page)
    (failed : (mapAnonPage root (page * pageSize) prot zero machine).1 = false) :
    Shows nx (mapAnonPage root (page * pageSize) prot zero machine).2 root view := by
  rcases mapAnonPage_cases root (page * pageSize) prot zero machine with none | ⟨np, taken, took, -, result⟩
  · rw [none]
    exact shows
  · obtain ⟨kept, -⟩ := took.commit shows.tables shows.alive user prot
    rw [result] at failed ⊢
    dsimp only at failed kept ⊢
    cases ok : (vmCommit root (page * pageSize) np 1 prot true taken).1 with
    | true => simp [ok] at failed
    | false => exact shows.refused took (kept ok) rfl

end Shows

end NyonOS.Paging
