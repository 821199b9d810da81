import CanCodec.C.Dispatch
import CanCodec.Proofs.C.Control

/-! # The search for a frame id

The search narrows an interval of rows. Every row before it has a smaller frame id than the
one that is sought, and every row after it a larger one. -/

namespace CanCodec.C

structure Context.Lists (context : Context) (table : String) (ids : List Nat) : Prop where
  entry : ∀ index (id : Nat), ids[index]? = some id → ∃ entry value,
    context.rowAt? (.row table index) = some entry ∧ entry.column .frameId = some value ∧
      value.toInt = id
  ascending : ids.Pairwise (· < ·)
  small : ∀ id ∈ ids, id < 2 ^ 32
  short : ids.length < 2 ^ 31

theorem Context.Lists.lt_of_lt {context : Context} {table : String} {ids : List Nat}
    {earlier later first second : Nat} (lists : context.Lists table ids)
    (atEarlier : ids[earlier]? = some first) (atLater : ids[later]? = some second)
    (before : earlier < later) : first < second := by
  rcases List.getElem?_eq_some_iff.mp atEarlier with ⟨earlierWithin, rfl⟩
  rcases List.getElem?_eq_some_iff.mp atLater with ⟨laterWithin, rfl⟩
  exact List.pairwise_iff_getElem.mp lists.ascending earlier later earlierWithin laterWithin before

/-- The variables of the search, and what is known of the rows outside the interval. -/
structure Searching (platform : Platform) (ids : List Nat) (frameId low high : Nat)
    (scope : Scope) : Prop where
  atLow : scope "low" = some (.integer (.ofInt platform.sizeType low))
  atHigh : scope "high" = some (.integer (.ofInt platform.sizeType high))
  given : scope "frame_id" = some (.integer (.ofInt (unsignedType .w32) frameId))
  ordered : low ≤ high
  within : high ≤ ids.length
  below : ∀ index (id : Nat), ids[index]? = some id → index < low → id < frameId
  above : ∀ index (id : Nat), ids[index]? = some id → high ≤ index → frameId < id

section

variable {context : Context} {table : String} {ids : List Nat}
  {frameId low high : Nat} {scope : Scope}

theorem Searching.not_mem (searching : Searching context.platform ids frameId low high scope)
    (closed : high ≤ low) : frameId ∉ ids := by
  intro member
  rcases List.getElem?_of_mem member with ⟨index, atIndex⟩
  rcases Nat.lt_or_ge index low with before | after
  · exact Nat.lt_irrefl _ (searching.below index frameId atIndex before)
  · exact Nat.lt_irrefl _ (searching.above index frameId atIndex (Nat.le_trans closed after))

theorem Searching.eval_open (searching : Searching context.platform ids frameId low high scope)
    (lists : context.Lists table ids) :
    (Condition.less (.variable "low") (.variable "high")).eval context scope =
      some (decide (low < high)) := by
  have short := lists.short
  have ordered := searching.ordered
  have within := searching.within
  exact Term.Denotes.eval_less (.of_variable _ searching.atLow (Platform.lt_sizeType (by omega)))
    (.of_variable _ searching.atHigh (Platform.lt_sizeType (by omega)))

def middle (low high : Nat) : Nat := low + (high - low) / 2

theorem Searching.middle_denotes
    (searching : Searching context.platform ids frameId low high scope)
    (lists : context.Lists table ids) (isOpen : low < high) :
    (Term.arithmetic .add (.variable "low")
      (.arithmetic .divide (.arithmetic .subtract (.variable "high") (.variable "low"))
        (.literal { value := 2 }))).Denotes context scope (middle low high) := by
  have short := lists.short
  have within := searching.within
  have lowDenotes : (Term.variable "low").Denotes context scope low :=
    .of_variable _ searching.atLow (Platform.lt_sizeType (by omega))
  have highDenotes : (Term.variable "high").Denotes context scope high :=
    .of_variable _ searching.atHigh (Platform.lt_sizeType (by omega))
  have widthDenotes : (Term.arithmetic .subtract (.variable "high") (.variable "low")).Denotes
      context scope (high - low) := by
    apply highDenotes.arithmetic lowDenotes _ (by omega)
    simp only [Arithmetic.compute, Option.some.injEq]
    omega
  have halfDenotes : (Term.arithmetic .divide (.arithmetic .subtract (.variable "high")
      (.variable "low")) (.literal { value := 2 })).Denotes context scope ((high - low) / 2) :=
    widthDenotes.arithmetic (.of_literal { value := 2 } (by decide) rfl) rfl (by omega)
  exact lowDenotes.arithmetic halfDenotes rfl (by rw [middle]; omega)

/-- A pass that has read the frame id `id` in the row `mid` of the interval. -/
structure Probing (platform : Platform) (ids : List Nat) (frameId low high mid id : Nat)
    (scope : Scope) : Prop extends Searching platform ids frameId low high scope where
  atMid : scope "mid" = some (.integer (.ofInt platform.sizeType mid))
  atId : scope "mid_id" = some (.integer (.ofInt (unsignedType .w32) id))
  listed : ids[mid]? = some id
  between : low ≤ mid ∧ mid < high

theorem Searching.probe (searching : Searching context.platform ids frameId low high scope)
    (lists : context.Lists table ids) (isOpen : low < high) :
    ∃ id, (Term.cell table (.variable "mid") .frameId).Denotes context
        (scope.set "mid" (.integer (.ofInt context.platform.sizeType (middle low high)))) id ∧
      Probing context.platform ids frameId low high (middle low high) id
        ((scope.set "mid" (.integer (.ofInt context.platform.sizeType (middle low high)))).set
          "mid_id" (.integer (.ofInt (unsignedType .w32) id))) := by
  have short := lists.short
  have within := searching.within
  have between : low ≤ middle low high ∧ middle low high < high := by
    rw [middle]
    omega
  generalize middle low high = mid at between
  have listed : ids[mid]? = some ids[mid] := List.getElem?_eq_getElem (by omega)
  rcases lists.entry mid ids[mid] listed with ⟨entry, value, isEntry, isValue, denotes⟩
  refine ⟨ids[mid], ?_, { searching with
    atMid := rfl, atId := rfl, listed := listed, between := between }⟩
  exact (Term.Denotes.of_variable context.platform.sizeType rfl
    (Platform.lt_sizeType (by omega))).cell isEntry isValue denotes

namespace Probing

variable {mid id : Nat}

theorem mid_denotes (probing : Probing context.platform ids frameId low high mid id scope)
    (lists : context.Lists table ids) : (Term.variable "mid").Denotes context scope mid := by
  have short := lists.short
  have within := probing.within
  have between := probing.between
  exact .of_variable _ probing.atMid (Platform.lt_sizeType (by omega))

theorem id_denotes (probing : Probing context.platform ids frameId low high mid id scope)
    (lists : context.Lists table ids) : (Term.variable "mid_id").Denotes context scope id :=
  .of_variable _ probing.atId (lists.small id (List.mem_of_getElem? probing.listed))

theorem frame_denotes (probing : Probing context.platform ids frameId low high mid id scope)
    (small : frameId < 2 ^ 32) : (Term.variable "frame_id").Denotes context scope frameId :=
  .of_variable _ probing.given small

theorem raise (probing : Probing context.platform ids frameId low high mid id scope)
    (lists : context.Lists table ids) (smaller : id < frameId) :
    Searching context.platform ids frameId (mid + 1) high
      (scope.set "low" (.integer (.ofInt context.platform.sizeType (mid + 1 : Nat)))) := by
  refine ⟨rfl, probing.atHigh, probing.given, probing.between.2, probing.within,
    fun index other atIndex below => ?_, probing.above⟩
  rcases Nat.lt_or_eq_of_le (Nat.le_of_lt_succ below) with earlier | same
  · exact Nat.lt_trans (lists.lt_of_lt atIndex probing.listed earlier) smaller
  · rw [same, probing.listed] at atIndex
    exact Option.some.inj atIndex ▸ smaller

theorem lower (probing : Probing context.platform ids frameId low high mid id scope)
    (lists : context.Lists table ids) (larger : frameId < id) :
    Searching context.platform ids frameId low mid
      (scope.set "high" (.integer (.ofInt context.platform.sizeType mid))) := by
  have within := probing.within
  have between := probing.between
  refine ⟨probing.atLow, rfl, probing.given, between.1, by omega, probing.below,
    fun index other atIndex above => ?_⟩
  rcases Nat.lt_or_eq_of_le above with later | same
  · exact Nat.lt_trans larger (lists.lt_of_lt probing.listed atIndex later)
  · rw [← same, probing.listed] at atIndex
    exact Option.some.inj atIndex ▸ larger

end Probing

/-- One pass finds the frame id in the middle row, or narrows the interval. -/
theorem Searching.pass (searching : Searching context.platform ids frameId low high scope)
    (lists : context.Lists table ids) (small : frameId < 2 ^ 32) (isOpen : low < high)
    (passes : Nat) :
    (∃ index, ids[index]? = some frameId ∧
      (searchPass table).run context passes scope = some (.gave (.row table index))) ∨
    ∃ next nextLow nextHigh, (searchPass table).run context passes scope = some (.fell next) ∧
      Searching context.platform ids frameId nextLow nextHigh next ∧
      nextHigh - nextLow < high - low := by
  rcases searching.probe lists isOpen with ⟨id, cellDenotes, probing⟩
  rw [searchPass, Block.run_declare _ rfl (searching.middle_denotes lists isOpen),
    Block.run_declare _ rfl cellDenotes, Block.run]
  have midDenotes := probing.mid_denotes lists
  have idDenotes := probing.id_denotes lists
  have frameDenotes := probing.frame_denotes small
  have between := probing.between
  generalize middle low high = mid at probing midDenotes idDenotes frameDenotes between
  by_cases found : id = frameId
  · left
    rcases lists.entry mid id probing.listed with ⟨entry, _, isEntry, _, _⟩
    refine ⟨mid, found ▸ probing.listed, ?_⟩
    rw [Block.run_test_true _ _ (by rw [idDenotes.eval_equal frameDenotes, decide_eq_true found]),
      Block.run, midDenotes.eval_row isEntry]
    rfl
  · right
    rw [Block.run_test_false _ _
      (by rw [idDenotes.eval_equal frameDenotes, decide_eq_false found])]
    by_cases smaller : id < frameId
    · have short := lists.short
      have within := probing.within
      have nextDenotes : (Term.arithmetic .add (.variable "mid") (.literal { value := 1 })).Denotes
          context _ (mid + 1) :=
        midDenotes.arithmetic (.of_literal { value := 1 } (by decide) rfl) rfl (by omega)
      rw [Block.run_choose_true _ _ _
          (by rw [idDenotes.eval_less frameDenotes, decide_eq_true smaller]),
        Block.run_assign _ probing.atLow nextDenotes]
      exact ⟨_, mid + 1, high, rfl, probing.raise lists smaller, by omega⟩
    · rw [Block.run_choose_false _ _ _
          (by rw [idDenotes.eval_less frameDenotes, decide_eq_false smaller]),
        Block.run_assign _ probing.atHigh midDenotes]
      exact ⟨_, low, mid, rfl, probing.lower lists (by omega), by omega⟩

/-- The search ends at the row of the frame id, or falls through if there is none. -/
theorem Searching.run (searching : Searching context.platform ids frameId low high scope)
    (lists : context.Lists table ids) (small : frameId < 2 ^ 32)
    (passes granted : Nat) (enough : high - low < granted) :
    (∃ index, ids[index]? = some frameId ∧
      iterate ((Condition.less (.variable "low") (.variable "high")).eval context)
        ((searchPass table).run context passes) granted scope = some (.gave (.row table index))) ∨
    frameId ∉ ids ∧ ∃ last,
      iterate ((Condition.less (.variable "low") (.variable "high")).eval context)
        ((searchPass table).run context passes) granted scope = some (.fell last) := by
  induction granted generalizing low high scope with
  | zero => omega
  | succ granted induction =>
      rw [iterate, searching.eval_open lists]
      by_cases isOpen : low < high
      · rcases searching.pass lists small isOpen passes with
          ⟨index, atIndex, gave⟩ | ⟨next, nextLow, nextHigh, fell, nextSearching, narrower⟩
        · left
          exact ⟨index, atIndex, by simp [isOpen, gave, Outcome.proceed]⟩
        · have rest := induction nextSearching (by omega)
          simp only [isOpen, decide_true, fell, Outcome.proceed, Option.bind_eq_bind,
            Option.bind_some, if_true]
          exact rest
      · right
        exact ⟨searching.not_mem (by omega), scope, by simp [isOpen]⟩

end

end CanCodec.C
