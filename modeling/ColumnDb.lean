import ColumnDb.Bptree.BulkGroups
import ColumnDb.Bptree.BulkSearch
import ColumnDb.Bptree.Copies
import ColumnDb.Bptree.LeafLayer
import ColumnDb.Bptree.Shape
import ColumnDb.Join.Hash
import ColumnDb.Join.Sort
import ColumnDb.Select.Marking
import ColumnDb.Server.AppendRace
import ColumnDb.Server.RewriteRace
import ColumnDb.Server.ThreadPool
import ColumnDb.Session.Csv
import ColumnDb.Session.JoinNames
import ColumnDb.Session.Loads
import ColumnDb.Session.NextSession
import ColumnDb.Session.Operands
import ColumnDb.Session.SortedSides
import ColumnDb.Session.Stream
import ColumnDb.Store.ByteList
import ColumnDb.Store.SortedTable
import ColumnDb.Store.UpperBounds
import ColumnDb.Store.WordMarks
import ColumnDb.Session.Arguments
import ColumnDb.Session.Script
import ColumnDb.Server.WaitLoop
import ColumnDb.Session.Answers
import ColumnDb.Session.TreeColumn
