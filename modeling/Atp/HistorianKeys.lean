import Atp.Protos

/-!
The keys of the historian's store.  Primary records, depth records, session logs
and the secondary index share one ordered map, told apart by the first part of
the key.
-/

namespace Atp.HistorianKeys

def entitySessionLog : Text := "sessionlog".toList

def entityIbMarketData : Text := "mkt".toList

def entityIbMarketDepth : Text := "depth".toList

def indexIbMarketDataByEvent : Text := "x/event-value".toList

def timeKey (entity symbol : Text) (timeMicros : UInt64) : Text :=
  entity ++ ':' :: (symbol ++ ':' :: decimal timeMicros.toNat)

def marketDataKey (symbol : Text) (timeMicros : UInt64) : Text :=
  timeKey entityIbMarketData symbol timeMicros

def marketDepthKey (symbol : Text) (timeMicros : UInt64) : Text :=
  timeKey entityIbMarketDepth symbol timeMicros

/-- `KeyBuilder<SessionLog>` for a point in time. -/
def sessionLogTimeKey (symbol : Text) (timeMicros : UInt64) : Text :=
  timeKey entitySessionLog symbol timeMicros

def sessionLogKey (value : SessionLog) : Text :=
  entitySessionLog ++ ':' :: (value.symbol ++ ':' ::
    (decimal value.startTimestamp.toNat ++ ':' :: decimal value.stopTimestamp.toNat))

def buildIndexKey (symbol event : Text) (timestamp : UInt64) : Text :=
  indexIbMarketDataByEvent ++ ':' :: (symbol ++ ':' ::
    (event ++ ':' :: decimal timestamp.toNat))

theorem timeKey_ne_nil (entity symbol : Text) (t : UInt64) : timeKey entity symbol t ≠ [] := by
  simp [timeKey]

theorem buildIndexKey_ne_nil (symbol event : Text) (t : UInt64) :
    buildIndexKey symbol event t ≠ [] := by
  simp [buildIndexKey]

theorem colon_not_mem_decimal (n : Nat) : ':' ∉ decimal n :=
  Text.not_mem_decimal (by decide) n

theorem decimal_toNat_inj {t t' : UInt64} :
    decimal t.toNat = decimal t'.toNat ↔ t = t' :=
  Text.decimal_injective.eq_iff.trans UInt64.toNat_inj

/-- Only a key of the same entity and symbol begins like this, even if the
symbol sought holds a colon. -/
theorem timeKey_eq_iff {entity symbol symbol' r : Text} {t : UInt64}
    (hsymbol : ':' ∉ symbol) :
    timeKey entity symbol t = entity ++ ':' :: (symbol' ++ ':' :: r) ↔
      symbol = symbol' ∧ decimal t.toNat = r := by
  rw [timeKey, List.append_cancel_left_eq, List.cons.injEq,
    List.append_cons_inj_of_notMem hsymbol (colon_not_mem_decimal _)]
  simp

theorem buildIndexKey_eq_iff {symbol event symbol' event' r : Text} {t : UInt64}
    (hsymbol : ':' ∉ symbol) (hevent : ':' ∉ event) :
    buildIndexKey symbol event t =
        indexIbMarketDataByEvent ++ ':' :: (symbol' ++ ':' :: (event' ++ ':' :: r)) ↔
      symbol = symbol' ∧ event = event' ∧ decimal t.toNat = r := by
  rw [buildIndexKey, List.append_cancel_left_eq, List.cons.injEq,
    Text.append_two_sep_inj hsymbol hevent (colon_not_mem_decimal _)]
  simp

/-- The time is the last part of a key, so it can be read back whatever the
symbol is. -/
theorem timeKey_inj {entity symbol symbol' : Text} {t t' : UInt64} :
    timeKey entity symbol t = timeKey entity symbol' t' ↔ symbol = symbol' ∧ t = t' := by
  rw [timeKey, timeKey, List.append_cancel_left_eq, List.cons.injEq,
    Text.append_last_sep_inj (colon_not_mem_decimal _) (colon_not_mem_decimal _),
    decimal_toNat_inj]
  simp

theorem timeKey_lt_iff_decimal (entity symbol : Text) (t t' : UInt64) :
    timeKey entity symbol t < timeKey entity symbol t' ↔
      decimal t.toNat < decimal t'.toNat := by
  rw [timeKey, timeKey, Text.append_lt_append_iff, List.cons_lt_cons_self,
    Text.append_lt_append_iff, List.cons_lt_cons_self]

theorem buildIndexKey_lt_iff_decimal (symbol event : Text) (t t' : UInt64) :
    buildIndexKey symbol event t < buildIndexKey symbol event t' ↔
      decimal t.toNat < decimal t'.toNat := by
  rw [buildIndexKey, buildIndexKey, Text.append_lt_append_iff, List.cons_lt_cons_self,
    Text.append_lt_append_iff, List.cons_lt_cons_self, Text.append_lt_append_iff,
    List.cons_lt_cons_self]

theorem entity_eq_of_key_eq {entity entity' a b : Text} (hentity : ':' ∉ entity)
    (hentity' : ':' ∉ entity') (heq : entity ++ ':' :: a = entity' ++ ':' :: b) :
    entity = entity' := ((Text.append_sep_inj hentity hentity').mp heq).1

end Atp.HistorianKeys
