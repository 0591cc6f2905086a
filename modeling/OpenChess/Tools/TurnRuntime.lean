import OpenChess.Chess.Value
import OpenChess.Graph.EnPassant
import OpenChess.Tools.CastlingRuntime

/-!
# The turn runtime

Model of `apply_move` in `tools/turn_runtime.py` over the shipped turn contract.
A state has the three declared fields; the counters are any integers until the
bounds are checked.
-/

namespace OpenChess
namespace TurnRuntime

inductive FailureClass
  | noSideToMove
  | badCounter
  | illegalTransition
  | unknownTermination
  deriving DecidableEq, Repr

inductive ErrorCode
  | malformedRequest
  | illegalTransition
  | unknownTermination
  | internal
  deriving DecidableEq, Repr

/-- `failure_mapping` of the contract. -/
def FailureClass.error : FailureClass → ErrorCode
  | .noSideToMove | .badCounter => .malformedRequest
  | .illegalTransition => .illegalTransition
  | .unknownTermination => .unknownTermination

structure State where
  sideToMove : Color
  halfmoveClock : ℤ
  fullmoveNumber : ℤ
  deriving DecidableEq, Repr

/-- `state.bounds`. -/
def State.Valid (s : State) : Prop := 0 ≤ s.halfmoveClock ∧ 1 ≤ s.fullmoveNumber

instance (s : State) : Decidable s.Valid := inferInstanceAs (Decidable (_ ∧ _))

inductive MoveKind
  | pawnMove
  | capture
  | quiet
  deriving DecidableEq, Repr

def MoveKind.text : MoveKind → Text
  | .pawnMove => "pawn_move".toList
  | .capture => "capture".toList
  | .quiet => "quiet".toList

/-- `halfmove_clock.reset_when`. -/
def resetWhen : List MoveKind := [.pawnMove, .capture]

/-- `set(_RESET_WHEN) | {"quiet"}`. -/
def moveKinds : List MoveKind := resetWhen ++ [.quiet]

/-- `termination.states`. -/
def terminationStates : List Text :=
  ["checkmate".toList, "stalemate".toList, "resignation".toList, "timeout".toList,
    "draw_agreement".toList, "fifty_move_claim".toList, "seventyfive_move_auto".toList,
    "fivefold_auto".toList, "threefold_claim".toList, "insufficient_material".toList,
    "variant_specific".toList]

def State.next (s : State) (kind : MoveKind) : State where
  sideToMove := s.sideToMove.other
  halfmoveClock := if kind ∈ resetWhen then 0 else s.halfmoveClock + 1
  fullmoveNumber := if s.sideToMove = .black then s.fullmoveNumber + 1 else s.fullmoveNumber

/-- The refusal of a terminated game. -/
def closed (terminated : Scalar) : FailureClass :=
  match terminated.text? with
  | some state => if state ∈ terminationStates then .illegalTransition else .unknownTermination
  | none => .unknownTermination

/-- `apply_move`; every move that is not a declared kind, the null move
included, is an illegal transition. -/
def applyMove (s : State) (move : Scalar) (terminated : Option Scalar) :
    Except FailureClass State :=
  if ¬ s.Valid then .error .badCounter
  else
    match terminated with
    | some state => .error (closed state)
    | none =>
      match move.text?.bind (readBack moveKinds MoveKind.text) with
      | none => .error .illegalTransition
      | some kind => .ok (s.next kind)

theorem MoveKind.text_injective : Function.Injective MoveKind.text := by
  intro a b h
  cases a <;> cases b <;> first | rfl | exact absurd h (by decide)

theorem mem_moveKinds (kind : MoveKind) : kind ∈ moveKinds := by cases kind <;> decide

/-- A declared kind always advances a valid state. -/
theorem applyMove_kind {s : State} (h : s.Valid) (kind : MoveKind) :
    applyMove s (.str kind.text) none = .ok (s.next kind) := by
  have hread : readBack moveKinds MoveKind.text kind.text = some kind :=
    (readBack_eq_some MoveKind.text_injective).mpr ⟨mem_moveKinds kind, rfl⟩
  unfold applyMove
  rw [if_neg (not_not.mpr h)]
  simp only [Scalar.text?, Option.bind_some, hread]

theorem State.Valid.next {s : State} (h : s.Valid) (kind : MoveKind) : (s.next kind).Valid := by
  obtain ⟨hhalf, hfull⟩ := h
  unfold State.Valid State.next
  refine ⟨?_, ?_⟩
  · dsimp only
    split_ifs
    · exact le_refl 0
    · omega
  · dsimp only
    split_ifs
    · omega
    · exact hfull

end TurnRuntime
end OpenChess

/-!
## Runs of the turn runtime

The closed form of a run of accepted moves, and the turn linkage of the castling
and en-passant runtimes, which name counter operations instead of carrying them
out.
-/

namespace OpenChess

/-! ### The turn linkage of the two move runtimes -/

/-- What a linkage may ask of a counter. -/
inductive CounterOp
  | reset
  | increment
  | same
  deriving DecidableEq, Repr

def CounterOp.act : CounterOp → ℤ → ℤ
  | .reset, _ => 0
  | .increment, n => n + 1
  | .same, n => n

structure TurnEffect where
  halfmoveClock : CounterOp
  fullmoveNumber : CounterOp
  deriving DecidableEq, Repr

/-- `turn_linkage`: the clock operation, and whether the fullmove number is
`increment-when-black`. -/
structure TurnLinkage where
  halfmoveClock : CounterOp
  incrementWhenBlack : Bool

def TurnLinkage.fullmove (linkage : TurnLinkage) (side : Color) : CounterOp :=
  if linkage.incrementWhenBlack ∧ side = .black then .increment else .same

/-- `turn_linkage` of `castling.yaml`. -/
def CastlingRuntime.turnLinkage : TurnLinkage := ⟨.increment, true⟩

/-- `turn_linkage` of `en_passant.yaml`. -/
def EnPassant.turnLinkage : TurnLinkage := ⟨.reset, true⟩

/-- `turn_effect` of `tools/castling_runtime.py`. -/
def CastlingRuntime.turnEffect (s : CastlingRuntime.State) (m : CastlingRuntime.Move) :
    Except CastlingRuntime.CastlingError TurnEffect :=
  if ¬ s.Valid then .error .malformed
  else if ¬ m.Valid then .error .malformed
  else
    match m with
    | .castle right =>
      if CastlingRuntime.grammarOk s.rights = false then .error (.failed .rightsMalformed)
      else .ok ⟨turnLinkage.halfmoveClock, turnLinkage.fullmove right.color⟩
    | _ => .error .malformed

/-- `turn_transition` of `graph/en_passant.py`. -/
def EnPassant.turnTransition (moveType side : Scalar) :
    Except EnPassant.FailureClass TurnEffect :=
  match moveType.text?.bind (readBack [.pawnAdvance, .epCapture, .quiet] EnPassant.MoveType.text),
      side.text?.bind (readBack [.white, .black] fun c : Color => [c.letter]) with
  | some kind, some c =>
    let pawnish := kind = .pawnAdvance ∨ kind = .epCapture
    .ok ⟨if pawnish ∧ turnLinkage.halfmoveClock = .reset then .reset else .increment,
      turnLinkage.fullmove c⟩
  | _, _ => .error .targetMalformed

namespace TurnRuntime

variable {s s' : State} {kinds : List MoveKind}

/-! ### Accepted moves -/

/-- A move of a declared kind is accepted in an open game, and no other. -/
theorem applyMove_eq_ok {move : Scalar} {terminated : Option Scalar} :
    applyMove s move terminated = .ok s' ↔
      s.Valid ∧ terminated = none ∧ ∃ kind : MoveKind, move = .str kind.text ∧ s' = s.next kind := by
  constructor
  · intro h
    unfold applyMove at h
    split_ifs at h with hs
    cases terminated with
    | some state => cases h
    | none =>
      simp only at h
      split at h
      · cases h
      · rename_i kind hkind
        cases h
        obtain ⟨text, htext, hread⟩ := Option.bind_eq_some_iff.mp hkind
        obtain ⟨-, rfl⟩ := (readBack_eq_some MoveKind.text_injective).mp hread
        exact ⟨hs, rfl, kind, Scalar.text?_eq_some.mp htext, rfl⟩
  · rintro ⟨hs, rfl, kind, rfl, rfl⟩
    exact applyMove_kind hs kind

def playCall (kind : MoveKind) : Scalar × Option Scalar := (.str kind.text, none)

/-- A run of `apply_move` calls, each accepted. -/
def run (s : State) (calls : List (Scalar × Option Scalar)) : Except FailureClass State :=
  calls.foldlM (fun s call => applyMove s call.1 call.2) s

theorem run_playCall (hs : s.Valid) (kinds : List MoveKind) :
    run s (kinds.map playCall) = .ok (kinds.foldl State.next s) := by
  induction kinds generalizing s with
  | nil => rfl
  | cons kind kinds ih =>
    rw [run, List.map_cons, List.foldlM_cons]
    simp only [playCall, applyMove_kind hs kind]
    exact ih (hs.next kind)

theorem of_run {calls : List (Scalar × Option Scalar)} (h : run s calls = .ok s') :
    ∃ kinds : List MoveKind, calls = kinds.map playCall ∧ s' = kinds.foldl State.next s := by
  induction calls generalizing s with
  | nil =>
    cases h
    exact ⟨[], rfl, rfl⟩
  | cons call calls ih =>
    obtain ⟨move, terminated⟩ := call
    rw [run, List.foldlM_cons] at h
    cases happly : applyMove s move terminated with
    | error cls => simp [happly, bind, Except.bind] at h
    | ok s₁ =>
      simp only [happly, bind, Except.bind] at h
      obtain ⟨-, rfl, kind, rfl, rfl⟩ := applyMove_eq_ok.mp happly
      obtain ⟨kinds, rfl, rfl⟩ := ih h
      exact ⟨kind :: kinds, rfl, rfl⟩

/-! ### The closed form -/

/-- The side that moves after `n` moves. -/
def sideAfter (side : Color) (n : ℕ) : Color := Color.other^[n] side

/-- How many of the next `n` moves are Black's. -/
def blackMoves (side : Color) (n : ℕ) : ℕ :=
  (List.range n).countP fun i => sideAfter side i = .black

theorem foldl_sideToMove (s : State) (kinds : List MoveKind) :
    (kinds.foldl State.next s).sideToMove = sideAfter s.sideToMove kinds.length := by
  induction kinds using List.reverseRecOn with
  | nil => rfl
  | append_singleton kinds kind ih =>
    rw [List.foldl_concat, List.length_append, List.length_singleton, sideAfter,
      Function.iterate_succ_apply']
    exact congrArg Color.other ih

theorem foldl_fullmoveNumber (s : State) (kinds : List MoveKind) :
    (kinds.foldl State.next s).fullmoveNumber =
      s.fullmoveNumber + blackMoves s.sideToMove kinds.length := by
  induction kinds using List.reverseRecOn with
  | nil => simp [blackMoves]
  | append_singleton kinds kind ih =>
    have hside := foldl_sideToMove s kinds
    rw [List.foldl_concat, State.next]
    simp only [hside, ih, blackMoves, List.length_append, List.length_singleton, List.range_succ,
      List.countP_append, List.countP_singleton, decide_eq_true_eq]
    split_ifs
    · push_cast
      ring
    · simp

theorem not_mem_resetWhen {kind : MoveKind} : kind ∉ resetWhen ↔ kind = .quiet := by
  cases kind <;> decide

theorem foldl_quiet (s : State) (h : ∀ kind ∈ kinds, kind = .quiet) :
    (kinds.foldl State.next s).halfmoveClock = s.halfmoveClock + kinds.length := by
  induction kinds using List.reverseRecOn with
  | nil => simp
  | append_singleton kinds kind ih =>
    have hquiet := h kind (by simp)
    rw [List.foldl_concat, State.next, if_neg (not_mem_resetWhen.mpr hquiet),
      ih fun k hk => h k (List.mem_append_left _ hk), List.length_append, List.length_singleton]
    push_cast
    ring

/-- After the last pawn move or capture the clock counts the moves since. -/
theorem foldl_halfmoveClock (s : State) {before after : List MoveKind} {kind : MoveKind}
    (hkind : kind ≠ .quiet) (hafter : ∀ k ∈ after, k = .quiet) :
    ((before ++ kind :: after).foldl State.next s).halfmoveClock = after.length := by
  have hreset : kind ∈ resetWhen := not_imp_comm.mp not_mem_resetWhen.mp hkind
  rw [List.foldl_append, List.foldl_cons, foldl_quiet _ hafter, State.next, if_pos hreset, zero_add]

/-! ### Agreement with the linkage -/

/-- The effect is what `apply_move` does to the counters when `side` plays `kind`. -/
def Names (effect : TurnEffect) (side : Color) (kind : MoveKind) : Prop :=
  ∀ s s' : State, s.sideToMove = side → applyMove s (.str kind.text) none = .ok s' →
    s'.halfmoveClock = effect.halfmoveClock.act s.halfmoveClock ∧
    s'.fullmoveNumber = effect.fullmoveNumber.act s.fullmoveNumber

/-- The kind of the turn runtime a move type of the en-passant runtime is. -/
def kindOf : EnPassant.MoveType → MoveKind
  | .pawnAdvance => .pawnMove
  | .epCapture => .capture
  | .quiet => .quiet

theorem names_of {effect : TurnEffect} {side : Color} {kind : MoveKind}
    (hhalf : effect.halfmoveClock = if kind ∈ resetWhen then .reset else .increment)
    (hfull : effect.fullmoveNumber = if side = .black then .increment else .same) :
    Names effect side kind := by
  intro s s' hside h
  obtain ⟨-, -, kind', hkind, rfl⟩ := applyMove_eq_ok.mp h
  obtain rfl := MoveKind.text_injective (Scalar.str.inj hkind)
  rw [hhalf, hfull, ← hside]
  refine ⟨?_, ?_⟩
  · rw [State.next, apply_ite CounterOp.act, ite_apply]
    rfl
  · rw [State.next, apply_ite CounterOp.act, ite_apply]
    rfl

theorem fullmove_eq (halfmoveClock : CounterOp) (side : Color) :
    TurnLinkage.fullmove ⟨halfmoveClock, true⟩ side =
      if side = .black then .increment else .same := by simp [TurnLinkage.fullmove]

theorem names_turnEffect {st : CastlingRuntime.State} {right : Right} {effect : TurnEffect}
    (h : CastlingRuntime.turnEffect st (.castle right) = .ok effect) :
    Names effect right.color .quiet := by
  unfold CastlingRuntime.turnEffect at h
  dsimp only at h
  split_ifs at h
  cases h
  exact names_of rfl (fullmove_eq ..)

theorem turnEffect_castle {st : CastlingRuntime.State} (hs : st.Valid)
    (hg : CastlingRuntime.grammarOk st.rights = true) (right : Right) :
    ∃ effect, CastlingRuntime.turnEffect st (.castle right) = .ok effect := by
  have hm : (CastlingRuntime.Move.castle right).Valid := trivial
  unfold CastlingRuntime.turnEffect
  rw [if_neg (not_not.mpr hs), if_neg (not_not.mpr hm)]
  simp only [hg, Bool.true_eq_false, if_false]
  exact ⟨_, rfl⟩

theorem names_turnTransition (kind : EnPassant.MoveType) (side : Color) :
    ∃ effect, EnPassant.turnTransition (.str kind.text) (.str [side.letter]) = .ok effect ∧
      Names effect side (kindOf kind) := by
  have hkind : readBack [.pawnAdvance, .epCapture, .quiet] EnPassant.MoveType.text kind.text =
      some kind := by cases kind <;> decide
  have hside : readBack [.white, .black] (fun c : Color => [c.letter]) [side.letter] =
      some side := by cases side <;> decide
  simp only [EnPassant.turnTransition, Scalar.text?, Option.bind_some, hkind, hside]
  refine ⟨_, rfl, names_of ?_ (fullmove_eq ..)⟩
  cases kind <;> rfl

/-- The turn law. An accepted run plays declared kinds; the side alternates, the
fullmove number counts Black's moves and the clock the moves since the last pawn
move or capture. The two linkages name what `apply_move` does for their kinds. -/
theorem turn_law_over_runs (s : State) (hs : s.Valid) :
    (∀ kinds : List MoveKind, ∃ s', run s (kinds.map playCall) = .ok s') ∧
    (∀ calls s', run s calls = .ok s' → ∃ kinds : List MoveKind, calls = kinds.map playCall ∧
      s'.sideToMove = sideAfter s.sideToMove kinds.length ∧
      s'.fullmoveNumber = s.fullmoveNumber + blackMoves s.sideToMove kinds.length ∧
      (∀ before kind after, kinds = before ++ kind :: after →
        (kind = .pawnMove ∨ kind = .capture) → (∀ k ∈ after, k = .quiet) →
        s'.halfmoveClock = after.length) ∧
      ((∀ k ∈ kinds, k = .quiet) → s'.halfmoveClock = s.halfmoveClock + kinds.length)) ∧
    (∀ (st : CastlingRuntime.State) (right : Right), st.Valid →
      CastlingRuntime.grammarOk st.rights = true →
      ∃ effect, CastlingRuntime.turnEffect st (.castle right) = .ok effect ∧
        Names effect right.color .quiet) ∧
    ∀ (kind : EnPassant.MoveType) (side : Color), ∃ effect,
      EnPassant.turnTransition (.str kind.text) (.str [side.letter]) = .ok effect ∧
        Names effect side (kindOf kind) := by
  refine ⟨fun kinds => ⟨_, run_playCall hs kinds⟩, fun calls s' h => ?_, fun st right hst hg => ?_,
    names_turnTransition⟩
  · obtain ⟨kinds, hcalls, rfl⟩ := of_run h
    refine ⟨kinds, hcalls, foldl_sideToMove s kinds, foldl_fullmoveNumber s kinds, ?_,
      foldl_quiet s⟩
    rintro before kind after rfl hkind hafter
    refine foldl_halfmoveClock s ?_ hafter
    rcases hkind with rfl | rfl <;> decide
  · obtain ⟨effect, heffect⟩ := turnEffect_castle hst hg right
    exact ⟨effect, heffect, names_turnEffect heffect⟩

theorem turn_law_over_runs_opening :
    ∃ s', run ⟨.white, 0, 1⟩ ([MoveKind.pawnMove, .quiet, .quiet].map playCall) = .ok s' :=
  (turn_law_over_runs ⟨.white, 0, 1⟩ (by decide)).1 _

end TurnRuntime
end OpenChess
