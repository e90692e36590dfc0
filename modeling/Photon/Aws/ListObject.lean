import Mathlib.Tactic

/-!
The listing of a bucket. The loop asks for page after page with a budget of keys. The budget
falls by what was asked for, not by what came, and a page that ends the bucket leaves the
continuation token as it was. So the listing is right only for servers whose pages end together
with the budget.
-/

namespace Photon.Aws

structure S3Object where
  key : String
  lastModified : Int
  size : Int64
deriving DecidableEq

structure ListObjectResult where
  objects : List S3Object
  objectCount : ℕ
deriving DecidableEq

def maxObjectProcessingLimit : ℕ := 1000

/-- The bucket and the key prefix are the same for all requests of a listing. -/
structure ListObjectsV2Input (T : Type) where
  maxKeys : ℕ
  continuationToken : Option T

structure ListObjectsV2Output (T : Type) where
  contents : List S3Object
  isTruncated : Bool
  nextContinuationToken : Option T

variable {T : Type}

/-- A client answers its requests one after another; the number is that of the request. -/
abbrev S3Client (T : Type) := ℕ → ListObjectsV2Input T → Except String (ListObjectsV2Output T)

def takeBatch (batchSize : ℕ) : ℕ × ℕ :=
  if batchSize ≥ maxObjectProcessingLimit then
    (maxObjectProcessingLimit, batchSize - maxObjectProcessingLimit)
  else (batchSize, 0)

theorem takeBatch_eq (batchSize : ℕ) :
    takeBatch batchSize =
      (min maxObjectProcessingLimit batchSize, batchSize - maxObjectProcessingLimit) := by
  rw [takeBatch]
  split_ifs with h
  · rw [min_eq_left h]
  · rw [min_eq_right (by omega), Nat.sub_eq_zero_of_le (by omega)]

/-- The loop. The budget only falls, so its 32 bits do not matter. -/
def listLoop (client : S3Client T) (request batchSize : ℕ) (token : Option T)
    (objects : ListObjectResult) : Except String ListObjectResult :=
  if _h : batchSize = 0 then .ok objects
  else
    match client request ⟨(takeBatch batchSize).1, token⟩ with
    | .error e => .error e
    | .ok awsResult =>
      if awsResult.contents.length > 0 then
        listLoop client (request + 1) (takeBatch batchSize).2
          (if awsResult.isTruncated then awsResult.nextContinuationToken else token)
          ⟨objects.objects ++ awsResult.contents,
            objects.objectCount + awsResult.contents.length⟩
      else .ok objects
termination_by batchSize
decreasing_by
  rw [takeBatch_eq]
  simp only [maxObjectProcessingLimit]
  omega

def listObject (client : S3Client T) (maxObjects : Int32) : Except String ListObjectResult :=
  listLoop client 0 maxObjects.toInt.toNat none ⟨[], 0⟩

/-! ### Servers -/

/-- The objects under the prefix and the way the server splits them into pages. A token stands
for the position behind the last key that was given; a page holds at least one key if one is
left. -/
structure Bucket (T : Type) where
  keys : List S3Object
  token : ℕ → T
  position : T → ℕ
  position_token : ∀ p, position (token p) = p
  pageSize : ℕ → ℕ → ℕ → ℕ
  pageSize_pos : ∀ request p maxKeys, 0 < maxKeys → 0 < pageSize request p maxKeys
  pageSize_le : ∀ request p maxKeys, pageSize request p maxKeys ≤ maxKeys

namespace Bucket

variable (bucket : Bucket T)

/-- The keys behind position `p`, as many as the server gives at once. -/
def page (request p maxKeys : ℕ) : List S3Object :=
  (bucket.keys.drop p).take (bucket.pageSize request p maxKeys)

def start (token : Option T) : ℕ := token.elim 0 bucket.position

def client : S3Client T := fun request input =>
  let p := bucket.start input.continuationToken
  let contents := bucket.page request p input.maxKeys
  let more := decide (p + contents.length < bucket.keys.length)
  .ok ⟨contents, more, if more then some (bucket.token (p + contents.length)) else none⟩

theorem length_page (request p maxKeys : ℕ) :
    (bucket.page request p maxKeys).length =
      min (bucket.pageSize request p maxKeys) (bucket.keys.length - p) := by
  rw [page, List.length_take, List.length_drop]

theorem page_pos (request : ℕ) {p maxKeys : ℕ} (hkeys : 0 < maxKeys)
    (hp : p < bucket.keys.length) : 0 < (bucket.page request p maxKeys).length := by
  have hsize := bucket.pageSize_pos request p maxKeys hkeys
  rw [length_page]
  omega

theorem take_append_page (request p maxKeys : ℕ) :
    bucket.keys.take p ++ bucket.page request p maxKeys =
      bucket.keys.take (p + (bucket.page request p maxKeys).length) := by
  rw [length_page, page, List.take_add, ← List.length_drop, ← List.take_take, List.take_length]

def maxKeys (budget j : ℕ) : ℕ :=
  min maxObjectProcessingLimit (budget - maxObjectProcessingLimit * j)

def reach (budget : ℕ) : ℕ → ℕ
  | 0 => 0
  | j + 1 => reach budget j + (bucket.page j (reach budget j) (maxKeys budget j)).length

/-- One turn of the loop. The token moves only if keys are left behind the page. -/
theorem listLoop_turn {request batchSize : ℕ} (hbatch : 0 < batchSize) {token : Option T}
    {contents : List S3Object}
    (hcontents : bucket.page request (bucket.start token)
      (min maxObjectProcessingLimit batchSize) = contents)
    (hpos : contents ≠ []) (objects : ListObjectResult) :
    ∃ next, bucket.start next =
        (if bucket.start token + contents.length < bucket.keys.length then
          bucket.start token + contents.length
        else bucket.start token) ∧
      listLoop bucket.client request batchSize token objects =
        listLoop bucket.client (request + 1) (batchSize - maxObjectProcessingLimit) next
          ⟨objects.objects ++ contents, objects.objectCount + contents.length⟩ := by
  rw [listLoop, dif_neg hbatch.ne']
  simp only [client, takeBatch_eq, hcontents, gt_iff_lt, List.length_pos_iff.mpr hpos, if_true,
    decide_eq_true_eq]
  refine ⟨_, ?_, rfl⟩
  split_ifs
  · exact bucket.position_token _
  · rfl

/-- A loop with a budget gives at least one more key. -/
theorem exists_more {request batchSize : ℕ} (hbatch : 0 < batchSize) {token : Option T}
    (hp : bucket.start token < bucket.keys.length) (objects : ListObjectResult) :
    ∃ more, more ≠ [] ∧ ∃ count, listLoop bucket.client request batchSize token objects =
      .ok ⟨objects.objects ++ more, count⟩ := by
  induction batchSize using Nat.strong_induction_on generalizing request token objects with
  | h batchSize ih =>
    have hmin : 0 < min maxObjectProcessingLimit batchSize := lt_min (by decide) hbatch
    obtain ⟨contents, hcontents⟩ : ∃ contents, bucket.page request (bucket.start token)
        (min maxObjectProcessingLimit batchSize) = contents := ⟨_, rfl⟩
    have hpage : contents ≠ [] := by
      rw [← hcontents]
      exact List.length_pos_iff.mp (bucket.page_pos request hmin hp)
    obtain ⟨next, hnext, hturn⟩ := bucket.listLoop_turn hbatch hcontents hpage objects
    rw [hturn]
    rcases Nat.eq_zero_or_pos (batchSize - maxObjectProcessingLimit) with hzero | hpos
    · refine ⟨contents, hpage, objects.objectCount + contents.length, ?_⟩
      rw [hzero, listLoop, dif_pos rfl]
    · have hless : batchSize - maxObjectProcessingLimit < batchSize :=
        Nat.sub_lt hbatch (by decide)
      have hinside : bucket.start next < bucket.keys.length := by
        rw [hnext]
        split_ifs with hmore
        · exact hmore
        · exact hp
      obtain ⟨more, -, count, hrest⟩ := ih _ hless hpos hinside _
      refine ⟨contents ++ more, List.append_ne_nil_of_left_ne_nil hpage more, count, ?_⟩
      rw [hrest, List.append_assoc]

def rounds (budget : ℕ) : ℕ := (budget + 999) / maxObjectProcessingLimit

theorem lt_rounds_iff {budget j : ℕ} :
    j < rounds budget ↔ maxObjectProcessingLimit * j < budget := by
  simp only [rounds, maxObjectProcessingLimit]
  omega

/-- As long as no page ends the bucket, the loop lists the keys in order. -/
theorem listLoop_eq {budget j : ℕ} (hj : j ≤ rounds budget)
    (hbefore : ∀ i < j, bucket.reach budget i < bucket.keys.length) :
    ∃ token, (bucket.reach budget j < bucket.keys.length →
        bucket.start token = bucket.reach budget j) ∧
      (j ≠ 0 → bucket.start token < bucket.keys.length) ∧
      listLoop bucket.client 0 budget none ⟨[], 0⟩ =
        listLoop bucket.client j (budget - maxObjectProcessingLimit * j) token
          ⟨bucket.keys.take (bucket.reach budget j), bucket.reach budget j⟩ := by
  induction j with
  | zero => exact ⟨none, fun _ => rfl, fun h => absurd rfl h, rfl⟩
  | succ j ih =>
    obtain ⟨token, htoken, -, hloop⟩ := ih (Nat.le_of_succ_le hj)
      fun i hi => hbefore i (Nat.lt_succ_of_lt hi)
    have hinside := hbefore j (Nat.lt_succ_self j)
    have hleft := Nat.sub_pos_of_lt (lt_rounds_iff.mp (Nat.lt_of_succ_le hj))
    have hpage : bucket.page j (bucket.start token)
        (min maxObjectProcessingLimit (budget - maxObjectProcessingLimit * j)) =
        bucket.page j (bucket.reach budget j) (maxKeys budget j) := by
      rw [htoken hinside, maxKeys]
    obtain ⟨next, hnext, hturn⟩ := bucket.listLoop_turn hleft hpage
      (List.length_pos_iff.mp (bucket.page_pos j (lt_min (by decide) hleft) hinside))
      ⟨bucket.keys.take (bucket.reach budget j), bucket.reach budget j⟩
    rw [htoken hinside] at hnext
    refine ⟨next, fun hmore => ?_, fun _ => ?_, ?_⟩
    · rw [hnext, reach]
      exact if_pos hmore
    · rw [hnext]
      split_ifs with hmore
      · exact hmore
      · exact hinside
    · rw [hloop, hturn, take_append_page, Nat.sub_sub, ← Nat.mul_succ]
      rfl

/-- The pages that the budget pays for hold as many keys as are wanted, and those before the
last of them do not end the bucket. -/
def Suits (budget : ℕ) : Prop :=
  budget = 0 ∨ bucket.keys = [] ∨
    (∀ j < rounds budget, bucket.reach budget j < bucket.keys.length) ∧
      bucket.reach budget (rounds budget) = min budget bucket.keys.length

def FillsPages : Prop := ∀ request p maxKeys, bucket.pageSize request p maxKeys = maxKeys

theorem listLoop_empty (hempty : bucket.keys = []) (budget : ℕ) :
    listLoop bucket.client 0 budget none ⟨[], 0⟩ = .ok ⟨[], 0⟩ := by
  rw [listLoop]
  split_ifs
  · rfl
  · simp [client, page, hempty]

/-- A page that ends the bucket before the last one is asked for again. -/
theorem listLoop_repeats {budget j : ℕ} (hj : j < rounds budget)
    (hend : bucket.keys.length ≤ bucket.reach budget j) (hkeys : bucket.keys ≠ []) :
    ∃ more, more ≠ [] ∧ ∃ count, listLoop bucket.client 0 budget none ⟨[], 0⟩ =
      .ok ⟨bucket.keys ++ more, count⟩ := by
  induction j using Nat.strong_induction_on with
  | h j ih =>
    by_cases hbefore : ∀ i < j, bucket.reach budget i < bucket.keys.length
    · have hzero : j ≠ 0 := by
        rintro rfl
        exact hkeys (List.length_eq_zero_iff.mp (Nat.le_zero.mp hend))
      obtain ⟨token, -, hinside, hloop⟩ := bucket.listLoop_eq hj.le hbefore
      have hleft := Nat.sub_pos_of_lt (lt_rounds_iff.mp hj)
      rw [hloop, List.take_of_length_le hend]
      exact bucket.exists_more hleft (hinside hzero) _
    · push Not at hbefore
      obtain ⟨i, hi, hend⟩ := hbefore
      exact ih i hi (hi.trans hj) hend

theorem listLoop_eq_iff (budget : ℕ) :
    listLoop bucket.client 0 budget none ⟨[], 0⟩ =
        .ok ⟨bucket.keys.take budget, min budget bucket.keys.length⟩ ↔
      bucket.Suits budget := by
  rcases eq_or_ne budget 0 with rfl | hbudget
  · refine iff_of_true ?_ (Or.inl rfl)
    rw [listLoop, dif_pos rfl, List.take_zero, Nat.zero_min]
  rcases eq_or_ne bucket.keys [] with hempty | hkeys
  · refine iff_of_true ?_ (Or.inr (Or.inl hempty))
    rw [bucket.listLoop_empty hempty, hempty, List.take_nil, List.length_nil, Nat.min_zero]
  simp only [Suits, hbudget, hkeys, false_or]
  by_cases hbefore : ∀ j < rounds budget, bucket.reach budget j < bucket.keys.length
  · obtain ⟨token, -, -, hloop⟩ := bucket.listLoop_eq le_rfl hbefore
    have hspent : budget - maxObjectProcessingLimit * rounds budget = 0 :=
      Nat.sub_eq_zero_of_le (not_lt.mp (mt lt_rounds_iff.mpr (lt_irrefl _)))
    rw [hloop, hspent, listLoop, dif_pos rfl]
    constructor
    · intro h
      exact ⟨hbefore, congrArg ListObjectResult.objectCount (Except.ok.inj h)⟩
    · rintro ⟨-, hreach⟩
      rw [hreach, ← List.take_take, List.take_length]
  · refine iff_of_false ?_ fun h => hbefore h.1
    push Not at hbefore
    obtain ⟨j, hj, hend⟩ := hbefore
    obtain ⟨more, hmore, count, hloop⟩ := bucket.listLoop_repeats hj hend hkeys
    rw [hloop]
    intro h
    have hobjects := congrArg ListObjectResult.objects (Except.ok.inj h)
    have hlength := congrArg List.length hobjects
    have hpos := List.length_pos_iff.mpr hmore
    simp only [List.length_append, List.length_take] at hlength
    omega

theorem reach_of_fillsPages (hfills : bucket.FillsPages) (budget j : ℕ) :
    bucket.reach budget j =
      min (min (maxObjectProcessingLimit * j) budget) bucket.keys.length := by
  induction j with
  | zero => simp [reach]
  | succ j ih =>
    rw [reach, length_page, hfills, ih, maxKeys]
    simp only [maxObjectProcessingLimit]
    omega

/-- With full pages, only the number of pages counts. -/
theorem suits_iff_of_fillsPages (hfills : bucket.FillsPages) (budget : ℕ) :
    bucket.Suits budget ↔ bucket.keys = [] ∨ rounds budget ≤ rounds bucket.keys.length := by
  have hlast : bucket.reach budget (rounds budget) = min budget bucket.keys.length := by
    have hspent := not_lt.mp (mt lt_rounds_iff.mpr (lt_irrefl (rounds budget)))
    rw [bucket.reach_of_fillsPages hfills, min_eq_right hspent]
  have hbefore : (∀ j < rounds budget, bucket.reach budget j < bucket.keys.length) ↔
      rounds budget ≤ rounds bucket.keys.length := by
    rw [← forall_lt_iff_le]
    refine forall₂_congr fun j hj => ?_
    have hpaid := lt_rounds_iff.mp hj
    rw [bucket.reach_of_fillsPages hfills, min_eq_left hpaid.le, lt_rounds_iff, min_lt_iff,
      or_iff_left (lt_irrefl _)]
  simp only [Suits, hbefore, hlast, and_true]
  refine or_iff_right_of_imp ?_
  rintro rfl
  exact Or.inr (Nat.zero_le _)

end Bucket

/-- The listing gives the first keys just if the pages suit the budget. -/
theorem listObject_eq_take_iff (bucket : Bucket T) (maxObjects : Int32) :
    (listObject bucket.client maxObjects =
        .ok ⟨bucket.keys.take maxObjects.toInt.toNat,
          min maxObjects.toInt.toNat bucket.keys.length⟩ ↔
      bucket.Suits maxObjects.toInt.toNat) ∧
    (bucket.FillsPages → (bucket.Suits maxObjects.toInt.toNat ↔
      bucket.keys = [] ∨
        Bucket.rounds maxObjects.toInt.toNat ≤ Bucket.rounds bucket.keys.length)) :=
  ⟨bucket.listLoop_eq_iff _, fun hfills => bucket.suits_iff_of_fillsPages hfills _⟩

/-- A server that fills its pages and uses the position itself as the token. -/
def Bucket.full (keys : List S3Object) : Bucket ℕ where
  keys := keys
  token := id
  position := id
  position_token _ := rfl
  pageSize _ _ maxKeys := maxKeys
  pageSize_pos _ _ _ h := h
  pageSize_le _ _ _ := le_rfl

theorem listObject_one_of_two :
    listObject (Bucket.full [⟨"a", 0, 1⟩, ⟨"b", 0, 2⟩]).client 1 = .ok ⟨[⟨"a", 0, 1⟩], 1⟩ := by
  have hfills : (Bucket.full [⟨"a", 0, 1⟩, ⟨"b", 0, 2⟩]).FillsPages := fun _ _ _ => rfl
  obtain ⟨hiff, hfull⟩ := listObject_eq_take_iff (Bucket.full [⟨"a", 0, 1⟩, ⟨"b", 0, 2⟩]) 1
  exact hiff.mpr ((hfull hfills).mpr (Or.inr (by decide)))

def oneEntry : Bucket ℕ := Bucket.full [⟨"a", 0, 1⟩]

/-- One key, listed with a budget of one more than a page. -/
theorem listObject_repeats_key :
    listObject oneEntry.client 1001 = .ok ⟨[⟨"a", 0, 1⟩, ⟨"a", 0, 1⟩], 2⟩ := by
  have hfirst : oneEntry.page 0 (oneEntry.start none) (min maxObjectProcessingLimit 1001) =
      [⟨"a", 0, 1⟩] := rfl
  obtain ⟨next, hnext, hturn⟩ := oneEntry.listLoop_turn (by decide) hfirst (List.cons_ne_nil _ _)
    ⟨[], 0⟩
  have hsecond : oneEntry.page 1 (oneEntry.start next) (min maxObjectProcessingLimit 1) =
      [⟨"a", 0, 1⟩] := by
    rw [hnext]
    rfl
  obtain ⟨last, -, hagain⟩ := oneEntry.listLoop_turn (by decide) hsecond
    (List.cons_ne_nil _ _) ⟨[⟨"a", 0, 1⟩], 1⟩
  calc listObject oneEntry.client 1001
    _ = listLoop oneEntry.client 1 1 next ⟨[⟨"a", 0, 1⟩], 1⟩ := hturn
    _ = listLoop oneEntry.client 2 0 last ⟨[⟨"a", 0, 1⟩, ⟨"a", 0, 1⟩], 2⟩ := hagain
    _ = .ok ⟨[⟨"a", 0, 1⟩, ⟨"a", 0, 1⟩], 2⟩ := by rw [listLoop, dif_pos rfl]

end Photon.Aws
