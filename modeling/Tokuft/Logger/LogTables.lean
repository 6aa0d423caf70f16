import Tokuft.Library.BoundedWriter
import Tokuft.Library.PositionReader
import Tokuft.Logger.X1764

/-! The kinds of log entries and of rollback entries, as tables of fields. -/

namespace Tokuft

/-- The types that fields of entries have. -/
inductive FieldType where
  | uint8
  | bool
  | uint32
  | uint64
  | filenum
  | filenums
  | bytestring
  | blocknum
  | lsn
  | txnid
  | txnidPair
  | xidp
  deriving DecidableEq, Repr

/-- The identifiers of a transaction and of its root, as they are logged. -/
structure LoggedTxnidPair where
  parentId64 : UInt64
  childId64 : UInt64
  deriving DecidableEq, Repr

/-- The name of a prepared transaction, whose data are two strings in a row. -/
structure TokuXaXid where
  formatID : Int64
  gtrid : Bytes
  bqual : Bytes
  deriving DecidableEq

/-- The values of a type. -/
abbrev FieldType.Value : FieldType → Type
  | uint8 => UInt8
  | bool => Bool
  | uint32 => UInt32
  | uint64 => UInt64
  | filenum => UInt32
  | filenums => List UInt32
  | bytestring => Bytes
  | blocknum => Int64
  | lsn => UInt64
  | txnid => UInt64
  | txnidPair => LoggedTxnidPair
  | xidp => TokuXaXid

instance : (type : FieldType) → DecidableEq type.Value
  | .uint8 => inferInstanceAs (DecidableEq UInt8)
  | .bool => inferInstanceAs (DecidableEq Bool)
  | .uint32 => inferInstanceAs (DecidableEq UInt32)
  | .uint64 => inferInstanceAs (DecidableEq UInt64)
  | .filenum => inferInstanceAs (DecidableEq UInt32)
  | .filenums => inferInstanceAs (DecidableEq (List UInt32))
  | .bytestring => inferInstanceAs (DecidableEq Bytes)
  | .blocknum => inferInstanceAs (DecidableEq Int64)
  | .lsn => inferInstanceAs (DecidableEq UInt64)
  | .txnid => inferInstanceAs (DecidableEq UInt64)
  | .txnidPair => inferInstanceAs (DecidableEq LoggedTxnidPair)
  | .xidp => inferInstanceAs (DecidableEq TokuXaXid)

/-- A field of an entry. -/
structure Field where
  type : FieldType
  name : String
  deriving DecidableEq, Repr

/-- A kind of entry, without the command, the sequence number and the checksum. -/
structure LogType where
  name : String
  command : Char
  fields : List Field
  deriving DecidableEq, Repr

/-- The byte that stands for a kind of entry. -/
def LogType.cmd (type : LogType) : UInt8 := type.command.toNat.toUInt8

/-- A value for every field. -/
def FieldValues : List Field → Type
  | [] => Unit
  | field :: fields => field.type.Value × FieldValues fields

instance : (fields : List Field) → DecidableEq (FieldValues fields)
  | [] => inferInstanceAs (DecidableEq Unit)
  | field :: fields =>
    have := instDecidableEqFieldValues fields
    inferInstanceAs (DecidableEq (field.type.Value × FieldValues fields))

/-- Change the value of every field. -/
def FieldValues.map (change : (field : Field) → field.type.Value → field.type.Value) :
    (fields : List Field) → FieldValues fields → FieldValues fields
  | [], values => values
  | field :: fields, (value, values) => (change field value, map change fields values)

/-- The kinds of rollback entries. -/
def rollbacks : List LogType := [
  ⟨"fdelete", 'U', [⟨.filenum, "filenum"⟩]⟩,
  ⟨"fcreate", 'F', [⟨.filenum, "filenum"⟩, ⟨.bytestring, "iname"⟩]⟩,
  ⟨"frename", 'n', [⟨.bytestring, "old_iname"⟩, ⟨.bytestring, "new_iname"⟩]⟩,
  ⟨"cmdinsert", 'i', [⟨.filenum, "filenum"⟩, ⟨.bytestring, "key"⟩]⟩,
  ⟨"cmddelete", 'd', [⟨.filenum, "filenum"⟩, ⟨.bytestring, "key"⟩]⟩,
  ⟨"rollinclude", 'r', [⟨.txnidPair, "xid"⟩, ⟨.uint64, "num_nodes"⟩, ⟨.blocknum, "spilled_head"⟩,
    ⟨.blocknum, "spilled_tail"⟩]⟩,
  ⟨"load", 'l', [⟨.filenum, "old_filenum"⟩, ⟨.bytestring, "new_iname"⟩]⟩,
  ⟨"hot_index", 'h', [⟨.filenums, "hot_index_filenums"⟩]⟩,
  ⟨"dictionary_redirect", 'R', [⟨.filenum, "old_filenum"⟩, ⟨.filenum, "new_filenum"⟩]⟩,
  ⟨"cmdupdate", 'u', [⟨.filenum, "filenum"⟩, ⟨.bytestring, "key"⟩]⟩,
  ⟨"cmdupdatebroadcast", 'B', [⟨.filenum, "filenum"⟩, ⟨.bool, "is_resetting_op"⟩]⟩,
  ⟨"change_fdescriptor", 'D', [⟨.filenum, "filenum"⟩, ⟨.bytestring, "old_descriptor"⟩]⟩]

/-- The kinds of log entries. -/
def logtypes : List LogType := [
  ⟨"begin_checkpoint", 'x', [⟨.uint64, "timestamp"⟩, ⟨.txnid, "last_xid"⟩]⟩,
  ⟨"end_checkpoint", 'X', [⟨.lsn, "lsn_begin_checkpoint"⟩, ⟨.uint64, "timestamp"⟩,
    ⟨.uint32, "num_fassociate_entries"⟩, ⟨.uint32, "num_xstillopen_entries"⟩]⟩,
  ⟨"fassociate", 'f', [⟨.filenum, "filenum"⟩, ⟨.uint32, "treeflags"⟩, ⟨.bytestring, "iname"⟩,
    ⟨.uint8, "unlink_on_close"⟩]⟩,
  ⟨"xstillopen", 's', [⟨.txnidPair, "xid"⟩, ⟨.txnidPair, "parentxid"⟩,
    ⟨.uint64, "rollentry_raw_count"⟩, ⟨.filenums, "open_filenums"⟩,
    ⟨.uint8, "force_fsync_on_commit"⟩, ⟨.uint64, "num_rollback_nodes"⟩,
    ⟨.uint64, "num_rollentries"⟩, ⟨.blocknum, "spilled_rollback_head"⟩,
    ⟨.blocknum, "spilled_rollback_tail"⟩, ⟨.blocknum, "current_rollback"⟩]⟩,
  ⟨"xstillopenprepared", 'p', [⟨.txnidPair, "xid"⟩, ⟨.xidp, "xa_xid"⟩,
    ⟨.uint64, "rollentry_raw_count"⟩, ⟨.filenums, "open_filenums"⟩,
    ⟨.uint8, "force_fsync_on_commit"⟩, ⟨.uint64, "num_rollback_nodes"⟩,
    ⟨.uint64, "num_rollentries"⟩, ⟨.blocknum, "spilled_rollback_head"⟩,
    ⟨.blocknum, "spilled_rollback_tail"⟩, ⟨.blocknum, "current_rollback"⟩]⟩,
  ⟨"xbegin", 'b', [⟨.txnidPair, "xid"⟩, ⟨.txnidPair, "parentxid"⟩]⟩,
  ⟨"xcommit", 'C', [⟨.txnidPair, "xid"⟩]⟩,
  ⟨"xprepare", 'P', [⟨.txnidPair, "xid"⟩, ⟨.xidp, "xa_xid"⟩]⟩,
  ⟨"xabort", 'q', [⟨.txnidPair, "xid"⟩]⟩,
  ⟨"fcreate", 'F', [⟨.txnidPair, "xid"⟩, ⟨.filenum, "filenum"⟩, ⟨.bytestring, "iname"⟩,
    ⟨.uint32, "mode"⟩, ⟨.uint32, "treeflags"⟩, ⟨.uint32, "nodesize"⟩,
    ⟨.uint32, "basementnodesize"⟩, ⟨.uint32, "compression_method"⟩]⟩,
  ⟨"fopen", 'O', [⟨.bytestring, "iname"⟩, ⟨.filenum, "filenum"⟩, ⟨.uint32, "treeflags"⟩]⟩,
  ⟨"fclose", 'e', [⟨.bytestring, "iname"⟩, ⟨.filenum, "filenum"⟩]⟩,
  ⟨"fdelete", 'U', [⟨.txnidPair, "xid"⟩, ⟨.filenum, "filenum"⟩]⟩,
  ⟨"frename", 'n', [⟨.txnidPair, "xid"⟩, ⟨.bytestring, "old_iname"⟩, ⟨.filenum, "old_filenum"⟩,
    ⟨.bytestring, "new_iname"⟩]⟩,
  ⟨"enq_insert", 'I', [⟨.filenum, "filenum"⟩, ⟨.txnidPair, "xid"⟩, ⟨.bytestring, "key"⟩,
    ⟨.bytestring, "value"⟩]⟩,
  ⟨"enq_insert_no_overwrite", 'i', [⟨.filenum, "filenum"⟩, ⟨.txnidPair, "xid"⟩,
    ⟨.bytestring, "key"⟩, ⟨.bytestring, "value"⟩]⟩,
  ⟨"enq_delete_any", 'E', [⟨.filenum, "filenum"⟩, ⟨.txnidPair, "xid"⟩, ⟨.bytestring, "key"⟩]⟩,
  ⟨"enq_insert_multiple", 'm', [⟨.filenum, "src_filenum"⟩, ⟨.filenums, "dest_filenums"⟩,
    ⟨.txnidPair, "xid"⟩, ⟨.bytestring, "src_key"⟩, ⟨.bytestring, "src_val"⟩]⟩,
  ⟨"enq_delete_multiple", 'M', [⟨.filenum, "src_filenum"⟩, ⟨.filenums, "dest_filenums"⟩,
    ⟨.txnidPair, "xid"⟩, ⟨.bytestring, "src_key"⟩, ⟨.bytestring, "src_val"⟩]⟩,
  ⟨"comment", 'T', [⟨.uint64, "timestamp"⟩, ⟨.bytestring, "comment"⟩]⟩,
  ⟨"shutdown_up_to_19", 'Q', [⟨.uint64, "timestamp"⟩]⟩,
  ⟨"shutdown", '0', [⟨.uint64, "timestamp"⟩, ⟨.txnid, "last_xid"⟩]⟩,
  ⟨"load", 'l', [⟨.txnidPair, "xid"⟩, ⟨.filenum, "old_filenum"⟩, ⟨.bytestring, "new_iname"⟩]⟩,
  ⟨"hot_index", 'h', [⟨.txnidPair, "xid"⟩, ⟨.filenums, "hot_index_filenums"⟩]⟩,
  ⟨"enq_update", 'u', [⟨.filenum, "filenum"⟩, ⟨.txnidPair, "xid"⟩, ⟨.bytestring, "key"⟩,
    ⟨.bytestring, "extra"⟩]⟩,
  ⟨"enq_updatebroadcast", 'B', [⟨.filenum, "filenum"⟩, ⟨.txnidPair, "xid"⟩,
    ⟨.bytestring, "extra"⟩, ⟨.bool, "is_resetting_op"⟩]⟩,
  ⟨"change_fdescriptor", 'D', [⟨.filenum, "filenum"⟩, ⟨.txnidPair, "xid"⟩,
    ⟨.bytestring, "old_descriptor"⟩, ⟨.bytestring, "new_descriptor"⟩,
    ⟨.bool, "update_cmp_descriptor"⟩]⟩]

/-- The kind of entry that a byte stands for. -/
def typeOfCmd (types : List LogType) (cmd : UInt8) : Option LogType :=
  types.find? fun type => type.cmd == cmd

/-- An entry of the log. -/
structure LogEntry where
  type : LogType
  lsn : UInt64
  values : FieldValues type.fields
  deriving DecidableEq

/-- An entry of a rollback log. -/
structure LoggedRollEntry where
  type : LogType
  values : FieldValues type.fields
  deriving DecidableEq

/-- No byte stands for two kinds of log entries. -/
theorem typeOfCmd_logtypes {type : LogType} (known : type ∈ logtypes) :
    typeOfCmd logtypes type.cmd = some type := by
  have all : ∀ type ∈ logtypes, typeOfCmd logtypes type.cmd = some type := by decide +kernel
  exact all type known

/-- No byte stands for two kinds of rollback entries. -/
theorem typeOfCmd_rollbacks {type : LogType} (known : type ∈ rollbacks) :
    typeOfCmd rollbacks type.cmd = some type := by
  have all : ∀ type ∈ rollbacks, typeOfCmd rollbacks type.cmd = some type := by decide +kernel
  exact all type known

end Tokuft
