import Dsa.Exec
import Dsa.Bstree.Node
import Dsa.Bstree.Iterator
import Dsa.Bstree.Shape
import Dsa.Bstree.Traversal
import Dsa.Bstree.Container
import Dsa.Bstree.Insert
import Dsa.Bstree.Erase
import Dsa.Bstree.Copy
import Dsa.Bstree.Compare
import Dsa.Bstree.Bounds
import Dsa.Bstree.Search
import Dsa.Bstree.InsertCorrect
import Dsa.Bstree.Graft
import Dsa.Bstree.EraseCorrect
import Dsa.Bstree.Decrement
import Dsa.Bstree.CopyCorrect
import Dsa.Bstree.TreeDelete
import Dsa.Bstree.InsertRange
import Dsa.Sorting.Range
import Dsa.Sorting.Blocksort
import Dsa.Sorting.Order
import Dsa.Sorting.Insertionsort
import Dsa.Sorting.Shellsort
import Dsa.Sorting.BlocksortMerge
import Dsa.Sorting.BlocksortCorrect
import Dsa.Bstree.Reachable
import Dsa.Bstree.Forest
