import FlyBoard.Lib.Bytes

/-!
# Rows of the users table

Rows reach the handlers as the JSON objects `db_sqlite3_row_to_json` builds: a
column is a number, a string or null, whatever type the writer stored. A column
that the row lacks reads like null everywhere below.
-/

namespace FlyBoard

/-- A column of a row, as `db_sqlite3_rows_to_json` stores it. -/
inductive Json where
  | null
  | num (n : Int)
  | str (s : Bytes)
deriving DecidableEq

namespace Json

/-- `json_string_or_empty`. -/
def stringOrEmpty : Json → Bytes
  | str s => s
  | _ => []

end Json

/-- The columns of the users table that the modelled handlers read. -/
structure UserRow where
  username : Json
  passwordHash : Json
  role : Json
  active : Json
  ghosted : Json
  totpSecret : Json
  totpEnabled : Json
  totpRecovery : Json
deriving DecidableEq

/-- `db_user_get_by_id` on a connection: a failing statement reads like a
missing row. -/
abbrev UserLookup := Int → Option UserRow

end FlyBoard
