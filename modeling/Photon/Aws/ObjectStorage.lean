import Photon.Lib.Machine
import Photon.Lib.Text

/-!
Two methods of the S3 object storage. `CopyObject` writes under a key to which it has added the
bucket, and reports the key without it. `GetMultipleObjects` starts a goroutine for every key of
every batch before it collects the first result, so that a batch never waits for the one before.
-/

namespace Photon.Aws

open Photon.Lib

section Copy

variable {C : Type}

abbrev Objects (C : Type) := String → String → Option C

structure CopyObjectInput where
  bucket : String
  copySource : String
  key : String

structure CopyObjectResult where
  isCopied : Bool
  objectKey : String

/-- The copy operation of the service. `source` gives the object that a copy source names. Other
errors of the service change nothing and are left out. -/
def Objects.copy (source : String → String × String) (objects : Objects C)
    (input : CopyObjectInput) : Except String (Objects C) :=
  match objects (source input.copySource).1 (source input.copySource).2 with
  | none => .error "NoSuchKey"
  | some content => .ok fun bucket key =>
    if bucket = input.bucket ∧ key = input.key then some content else objects bucket key

def getObject (objects : Objects C) (bucket key : String) : Option C := objects bucket key

def copyObject (source : String → String × String) (objects : Objects C)
    (srcBucket srcObject destBucket destObject : String) :
    Except String (Objects C × CopyObjectResult) :=
  match objects.copy source
      ⟨destBucket, srcBucket ++ "/" ++ srcObject, destBucket ++ "/" ++ destObject⟩ with
  | .error e => .error e
  | .ok objects => .ok (objects, ⟨true, destObject⟩)

/-- The reported key holds what the source held, and no other key of the bucket has changed. -/
structure Lands (before after : Objects C) (srcBucket srcObject destBucket : String)
    (result : CopyObjectResult) : Prop where
  copied : getObject after destBucket result.objectKey = getObject before srcBucket srcObject
  others : ∀ key, key ≠ result.objectKey →
    getObject after destBucket key = getObject before destBucket key

/-- A copy lands where it says just if it finds its content there, and also where it writes. -/
theorem copy_lands_iff (source : String → String × String) {before after : Objects C}
    {srcBucket srcObject destBucket destObject : String} {result : CopyObjectResult}
    (h : copyObject source before srcBucket srcObject destBucket destObject =
      .ok (after, result)) :
    Lands before after srcBucket srcObject destBucket result ↔
      before destBucket destObject = before srcBucket srcObject ∧
        before destBucket (destBucket ++ "/" ++ destObject) =
          before (source (srcBucket ++ "/" ++ srcObject)).1
            (source (srcBucket ++ "/" ++ srcObject)).2 := by
  rw [copyObject, Objects.copy] at h
  cases hsource : before (source (srcBucket ++ "/" ++ srcObject)).1
      (source (srcBucket ++ "/" ++ srcObject)).2 with
  | none =>
    rw [hsource] at h
    cases h
  | some content =>
    rw [hsource] at h
    cases h
    have hreported : getObject (fun bucket key =>
        if bucket = destBucket ∧ key = destBucket ++ "/" ++ destObject then some content
        else before bucket key) destBucket destObject = before destBucket destObject :=
      if_neg fun h => ne_append_separator (by decide) (.inr rfl) h.2
    have hwritten : getObject (fun bucket key =>
        if bucket = destBucket ∧ key = destBucket ++ "/" ++ destObject then some content
        else before bucket key) destBucket (destBucket ++ "/" ++ destObject) = some content :=
      if_pos ⟨rfl, rfl⟩
    constructor
    · rintro ⟨hcopied, hothers⟩
      exact ⟨hreported.symm.trans hcopied,
        (hothers _ (ne_append_separator (by decide) (.inr rfl)).symm).symm.trans hwritten⟩
    · rintro ⟨hthere, hheld⟩
      refine ⟨hreported.trans hthere, fun key _ => ?_⟩
      by_cases hkey : key = destBucket ++ "/" ++ destObject
      · rw [hkey]
        exact hwritten.trans hheld.symm
      · exact if_neg fun h => hkey h.2

def firstSlash (copySource : String) : String × String :=
  (String.ofList (copySource.toList.takeWhile (· ≠ '/')),
    String.ofList ((copySource.toList.dropWhile (· ≠ '/')).drop 1))

def copiedBefore : Objects ℕ := fun bucket key =>
  if bucket = "a" ∧ (key = "x" ∨ key = "a/x") then some 7 else none

theorem second_copy_lands :
    ∃ after result, copyObject firstSlash copiedBefore "a" "x" "a" "x" = .ok (after, result) ∧
      Lands copiedBefore after "a" "x" "a" result :=
  ⟨_, _, rfl, (copy_lands_iff firstSlash rfl).mpr ⟨rfl, rfl⟩⟩

def oneObject : Objects ℕ := fun bucket key => if bucket = "a" ∧ key = "x" then some 7 else none

/-- The reported key of the new bucket stays empty. -/
theorem copy_lands_elsewhere :
    ∃ after result, copyObject firstSlash oneObject "a" "x" "b" "y" = .ok (after, result) ∧
      ¬Lands oneObject after "a" "x" "b" result ∧ getObject after "b" "y" = none ∧
      getObject after "b" "b/y" = some 7 :=
  ⟨_, _, rfl, fun h => absurd h.copied nofun, rfl, rfl⟩

end Copy

namespace MultiGet

def maxGetObjectBatchLimit : ℕ := 50

/-- The quotient is that of two floats, which rounds up to the same number for the lengths that a
slice can have. -/
def createChunks {α : Type} (s : List α) (size : ℕ) : Except String (List (List α)) :=
  if size < 1 then .error "size cannot be less than 1"
  else .ok ((List.range ((s.length + size - 1) / size)).map fun i =>
    (s.take ((i + 1) * size)).drop (i * size))

/-- A goroutine: in `GetObject`, whose outcome is known, at the channel, or behind it. -/
inductive Stage (R : Type) where
  | fetching (outcome : Option R)
  | sending (result : R)
  | leaving
  | gone

/-- The keys that have no goroutine yet, each with the outcome of its fetch, the goroutines, the
wait group, the channel and the caller. -/
structure State (R : Type) where
  keys : List (String × Option R)
  goroutines : List (Stage R)
  wg : ℕ
  closed : Bool
  results : List R
  returned : Bool

variable {R : Type}

/-- A result can be sent once the caller receives, which is when all goroutines are started. -/
def Stage.canGo (keys : List (String × Option R)) : Stage R → Bool
  | .sending _ => keys.isEmpty
  | .gone => false
  | _ => true

def Stage.next : Stage R → Stage R
  | .fetching (some r) => .sending r
  | .leaving => .gone
  | .gone => .gone
  | _ => .leaving

def Stage.sent : Stage R → List R
  | .sending r => [r]
  | _ => []

def Stage.done : Stage R → ℕ
  | .leaving => 1
  | _ => 0

inductive Action where
  | spawn
  | advance (i : ℕ)
  | close
  | finish

/-- A step happens only where it can. The channel is closed by a goroutine of its own. -/
def State.step (s : State R) : Action → State R
  | .spawn =>
    match s.keys with
    | [] => s
    | key :: keys =>
      { s with keys := keys, goroutines := s.goroutines ++ [.fetching key.2], wg := s.wg + 1 }
  | .advance i =>
    match s.goroutines[i]? with
    | none => s
    | some stage =>
      if stage.canGo s.keys then
        { s with
          goroutines := s.goroutines.set i stage.next
          wg := s.wg - stage.done
          results := s.results ++ stage.sent }
      else s
  | .close => if s.keys = [] ∧ s.wg = 0 then { s with closed := true } else s
  | .finish => if s.closed then { s with returned := true } else s

def machine : Machine (State R) Action Unit := ⟨fun s a => (s.step a, ())⟩

/-- The call of `GetMultipleObjects`, for keys with the outcomes of their fetches. -/
def call (keys : List (String × Option R)) : Except String (State R) :=
  match createChunks keys maxGetObjectBatchLimit with
  | .error e => .error e
  | .ok batches => .ok ⟨batches.flatten, [], 0, false, [], false⟩

def Stage.isFetching : Stage R → Bool
  | .fetching _ => true
  | _ => false

def State.fetching (s : State R) : ℕ := s.goroutines.countP Stage.isFetching

def Stage.rest : Stage R → ℕ
  | .fetching _ => 3
  | .sending _ => 2
  | .leaving => 1
  | .gone => 0

def State.rest (s : State R) : ℕ :=
  4 * s.keys.length + (s.goroutines.map Stage.rest).sum + (if s.closed then 0 else 1) +
    if s.returned then 0 else 1

/-- Every change brings the call nearer to its end; without a fetch in progress a call that has
not returned can go on; nobody sends on the closed channel; the call returns the results of the
fetches that succeeded; and the fetches in progress are at most those of a batch. -/
structure CompleteAndBounded (keys : List (String × Option R)) (s : State R) : Prop where
  ends : ∀ a, s.step a = s ∨ (s.step a).rest < s.rest
  proceeds : s.returned = false → s.fetching = 0 → ∃ a, s.step a ≠ s
  sends : s.closed = true → ∀ r, Stage.sending r ∉ s.goroutines
  complete : s.returned = true → s.results.Perm (keys.filterMap Prod.snd)
  bounded : s.fetching ≤ maxGetObjectBatchLimit

/-! ### Steps -/

inductive Moves (s : State R) : State R → Prop
  | spawn {key : String × Option R} {keys : List (String × Option R)} (h : s.keys = key :: keys) :
      Moves s { s with
        keys := keys
        goroutines := s.goroutines ++ [.fetching key.2]
        wg := s.wg + 1 }
  | advance {front back : List (Stage R)} {stage : Stage R} (hcan : stage.canGo s.keys = true)
      (h : s.goroutines = front ++ stage :: back) :
      Moves s { s with
        goroutines := front ++ stage.next :: back
        wg := s.wg - stage.done
        results := s.results ++ stage.sent }
  | close (hkeys : s.keys = []) (hwg : s.wg = 0) (h : s.closed = false) :
      Moves s { s with closed := true }
  | finish (hclosed : s.closed = true) (h : s.returned = false) :
      Moves s { s with returned := true }

theorem advance_moves {s : State R} {i : ℕ} {stage : Stage R} (h : s.goroutines[i]? = some stage)
    (hcan : stage.canGo s.keys = true) : Moves s (s.step (.advance i)) := by
  obtain ⟨hi, hget⟩ := List.getElem?_eq_some_iff.mp h
  rw [State.step, h]
  dsimp only
  rw [if_pos hcan, List.set_eq_take_append_cons_drop, if_pos hi]
  refine .advance hcan ?_
  rw [← hget, List.getElem_cons_drop, List.take_append_drop]

theorem step_cases (s : State R) (a : Action) : s.step a = s ∨ Moves s (s.step a) := by
  cases a with
  | spawn =>
    cases hkeys : s.keys with
    | nil => exact Or.inl (by rw [State.step, hkeys])
    | cons key keys =>
      rw [State.step, hkeys]
      exact Or.inr (.spawn hkeys)
  | advance i =>
    cases hstage : s.goroutines[i]? with
    | none => exact Or.inl (by rw [State.step, hstage])
    | some stage =>
      by_cases hcan : stage.canGo s.keys = true
      · exact Or.inr (advance_moves hstage hcan)
      · exact Or.inl (by rw [State.step, hstage]; exact if_neg hcan)
  | close =>
    rw [State.step]
    split_ifs with hready
    · cases hclosed : s.closed with
      | true => exact Or.inl (by rw [← hclosed])
      | false => exact Or.inr (.close hready.1 hready.2 hclosed)
    · exact Or.inl rfl
  | finish =>
    rw [State.step]
    split_ifs with hclosed
    · cases hreturned : s.returned with
      | true => exact Or.inl (by rw [← hreturned])
      | false => exact Or.inr (.finish hclosed hreturned)
    · exact Or.inl rfl

def Stage.owed : Stage R → List R
  | .fetching outcome => outcome.toList
  | .sending r => [r]
  | _ => []

/-- One step of a goroutine. -/
theorem Stage.next_spec {stage : Stage R} {keys : List (String × Option R)}
    (h : stage.canGo keys = true) :
    stage.next.rest < stage.rest ∧ stage.owed = stage.sent ++ stage.next.owed ∧
      (if 0 < stage.rest then 1 else 0) = (if 0 < stage.next.rest then 1 else 0) + stage.done := by
  cases stage with
  | gone => cases h
  | fetching outcome => cases outcome <;> exact ⟨by simp [next, rest], rfl, rfl⟩
  | _ => exact ⟨by simp [next, rest], rfl, rfl⟩

/-- The wait group counts the goroutines that are not gone, and no result is lost or doubled. -/
structure Inv (keys : List (String × Option R)) (s : State R) : Prop where
  wg : s.wg = s.goroutines.countP (fun stage => 0 < stage.rest)
  closed : s.closed = true → s.keys = [] ∧ s.wg = 0
  returned : s.returned = true → s.closed = true
  owed : (s.results ++ s.goroutines.flatMap Stage.owed ++ s.keys.filterMap Prod.snd).Perm
    (keys.filterMap Prod.snd)
  count : s.goroutines.length + s.keys.length = keys.length

section Invariant

variable {keys : List (String × Option R)} {s next : State R}

theorem Moves.rest_lt (h : Moves s next) : next.rest < s.rest := by
  cases h with
  | spawn h =>
    simp only [State.rest, h, List.length_cons, List.map_append, List.sum_append]
    simp [Stage.rest]
    omega
  | advance hcan h =>
    have hless := (Stage.next_spec hcan).1
    simp only [State.rest, h, List.map_append, List.map_cons, List.sum_append, List.sum_cons]
    omega
  | close _ _ h | finish _ h => simp [State.rest, h]

/-- A goroutine that is not gone keeps the channel open. -/
theorem Inv.open_of_mem (hinv : Inv keys s) {stage : Stage R} (h : stage ∈ s.goroutines)
    (hrest : 0 < stage.rest) : s.closed = false := by
  by_contra hclosed
  have hzero := (hinv.closed (by simpa using hclosed)).2
  rw [hinv.wg, List.countP_eq_zero] at hzero
  exact hzero stage h (by simpa using hrest)

theorem Inv.moves (hinv : Inv keys s) (h : Moves s next) : Inv keys next := by
  have hopen : ∀ stage ∈ s.goroutines, 0 < stage.rest → s.closed = false :=
    fun _ => hinv.open_of_mem
  obtain ⟨hwg, hclosed, hreturned, howed, hcount⟩ := hinv
  cases h with
  | @spawn key keys h =>
    rw [h] at hclosed howed hcount
    refine ⟨by simp [hwg, Stage.rest], fun hc => absurd (hclosed hc).1 nofun, hreturned, ?_, ?_⟩
    · rw [List.filterMap_cons] at howed
      cases houtcome : key.2 <;> simpa [houtcome, Stage.owed] using howed
    · rw [List.length_cons] at hcount
      simp only [List.length_append, List.length_singleton]
      omega
  | @advance front back stage hcan h =>
    obtain ⟨hrest, hsent, hdone⟩ := Stage.next_spec hcan
    have hc : s.closed = false := hopen stage (by simp [h]) (by omega)
    refine ⟨?_, fun hc' => ?_, hreturned, ?_, by simpa [h] using hcount⟩
    · simp only [hwg, h, List.countP_append, List.countP_cons, decide_eq_true_eq]
      omega
    · rw [hc] at hc'
      cases hc'
    · refine List.Perm.trans ?_ howed
      simp only [h, List.flatMap_append, List.flatMap_cons, hsent, List.append_assoc]
      exact (List.perm_append_comm_assoc _ _ _).append_left _
  | close hkeys hzero => exact ⟨hwg, fun _ => ⟨hkeys, hzero⟩, fun _ => rfl, howed, hcount⟩
  | finish hc => exact ⟨hwg, hclosed, fun _ => hc, howed, hcount⟩

/-- A call that has not returned is only ever held up by fetches. -/
theorem Inv.proceeds (hinv : Inv keys s) (hreturned : s.returned = false)
    (hfetching : s.fetching = 0) : ∃ a, s.step a ≠ s := by
  have hne : ∀ {a}, Moves s (s.step a) → s.step a ≠ s := by
    intro a hmoves heq
    have hless := hmoves.rest_lt
    rw [heq] at hless
    exact Nat.lt_irrefl _ hless
  cases hkeys : s.keys with
  | cons key keys =>
    refine ⟨.spawn, hne ?_⟩
    rw [State.step, hkeys]
    exact .spawn hkeys
  | nil =>
    by_cases hgone : ∃ stage ∈ s.goroutines, 0 < stage.rest
    · obtain ⟨stage, hmem, hrest⟩ := hgone
      obtain ⟨i, hi⟩ := List.mem_iff_getElem?.mp hmem
      have hstage := List.countP_eq_zero.mp hfetching _ hmem
      refine ⟨.advance i, hne (advance_moves hi ?_)⟩
      rw [hkeys]
      cases stage with
      | fetching outcome => exact absurd rfl hstage
      | gone => cases hrest
      | _ => rfl
    · have hwg : s.wg = 0 := by
        rw [hinv.wg, List.countP_eq_zero]
        intro stage hmem hrest
        exact hgone ⟨stage, hmem, of_decide_eq_true hrest⟩
      cases hclosed : s.closed with
      | true =>
        refine ⟨.finish, hne ?_⟩
        rw [State.step, if_pos hclosed]
        exact .finish hclosed hreturned
      | false =>
        refine ⟨.close, hne ?_⟩
        rw [State.step, if_pos ⟨hkeys, hwg⟩]
        exact .close hkeys hwg hclosed

theorem Inv.complete (hinv : Inv keys s) (h : s.returned = true) :
    s.results.Perm (keys.filterMap Prod.snd) := by
  have hclosed := hinv.returned h
  have howed := hinv.owed
  have hnone : s.goroutines.flatMap Stage.owed = [] := by
    rw [List.flatMap_eq_nil_iff]
    intro stage hmem
    cases hrest : stage.rest with
    | zero => cases stage <;> first | rfl | cases hrest
    | succ n =>
      rw [hinv.open_of_mem hmem (by omega)] at hclosed
      cases hclosed
  rwa [hnone, (hinv.closed hclosed).1, List.append_nil, List.filterMap_nil, List.append_nil]
    at howed

end Invariant

/-! ### The call -/

theorem flatten_chunks {α : Type} (s : List α) {size : ℕ} (hsize : 0 < size) :
    ∃ chunks, createChunks s size = .ok chunks ∧ chunks.flatten = s := by
  have hfront : ∀ n, ((List.range n).map fun i =>
      (s.take ((i + 1) * size)).drop (i * size)).flatten = s.take (n * size) := by
    intro n
    induction n with
    | zero => simp
    | succ n ih =>
      have htake : s.take (n * size) = (s.take ((n + 1) * size)).take (n * size) := by
        rw [List.take_take, Nat.min_eq_left (Nat.mul_le_mul_right size n.le_succ)]
      rw [List.range_succ, List.map_append, List.flatten_append, ih, htake]
      simp [List.take_append_drop]
  refine ⟨_, if_neg (by omega), (hfront _).trans (List.take_of_length_le ?_)⟩
  have hdiv := Nat.div_add_mod (s.length + size - 1) size
  have hmod := Nat.mod_lt (s.length + size - 1) hsize
  rw [Nat.mul_comm] at hdiv
  omega

theorem run_spawn (s : State R) :
    (machine.run s (List.replicate s.keys.length .spawn)).fetching =
      s.fetching + s.keys.length := by
  obtain ⟨keys, goroutines, wg, closed, results, returned⟩ := s
  induction keys generalizing goroutines wg with
  | nil => rfl
  | cons key keys ih =>
    have hrest := ih (goroutines ++ [.fetching key.2]) (wg + 1)
    have hone : State.fetching ⟨keys, goroutines ++ [.fetching key.2], wg + 1, closed, results,
        returned⟩ = goroutines.countP Stage.isFetching + 1 := by
      simp [State.fetching, Stage.isFetching]
    rw [hone] at hrest
    rw [List.length_cons, List.replicate_succ, Machine.run_cons]
    refine hrest.trans ?_
    dsimp [State.fetching]
    omega

/-- The call is complete in every run, and bounded just if its keys fit into one batch. -/
theorem multi_get_complete_and_bounded_iff (keys : List (String × Option R)) :
    (∃ start, call keys = .ok start ∧
      ∀ actions, CompleteAndBounded keys (machine.run start actions)) ↔
    keys.length ≤ maxGetObjectBatchLimit := by
  obtain ⟨chunks, hchunks, hflatten⟩ := flatten_chunks keys (by decide : 0 < maxGetObjectBatchLimit)
  have hcall : call keys = .ok ⟨keys, [], 0, false, [], false⟩ := by
    rw [call, hchunks, ← hflatten]
  constructor
  · rintro ⟨start, hstart, h⟩
    cases hcall.symm.trans hstart
    have hbound := (h (List.replicate keys.length .spawn)).bounded
    rw [run_spawn] at hbound
    simpa [State.fetching] using hbound
  · intro hfew
    refine ⟨_, hcall, fun actions => ?_⟩
    have hinv : Inv keys (machine.run ⟨keys, [], 0, false, [], false⟩ actions) := by
      refine machine.run_invariant_of_step (Inv keys) (fun s a hs => ?_) _ actions
        ⟨rfl, nofun, nofun, by simp, by simp⟩
      rcases step_cases s a with hsame | hmoves
      · exact (congrArg (Inv keys) hsame).mpr hs
      · exact hs.moves hmoves
    refine ⟨fun a => (step_cases _ a).imp_right Moves.rest_lt, hinv.proceeds, ?_, hinv.complete, ?_⟩
    · intro hclosed r hmem
      rw [hinv.open_of_mem hmem Nat.two_pos] at hclosed
      cases hclosed
    · have hcount := hinv.count
      exact List.countP_le_length.trans (by omega)

/-- Fifty-one keys are fetched all at once. -/
theorem fifty_one_fetched_at_once :
    ∃ start, call (List.replicate 51 ("key", some 0)) = .ok start ∧
      (machine.run start (List.replicate 51 .spawn)).fetching = 51 :=
  ⟨_, rfl, by decide +kernel⟩

end MultiGet

end Photon.Aws
